import ByteSchema.Proofs.ConfinedSteps
import ByteSchema.Proofs.SchemaImages

/-!
# What a failing write leaves behind

The announced size of a value is told without noticing what makes the write fail: numbers are not
checked against their range, and items of a fixed size are not looked at.  It tells where every part
goes all the same, so a write that fails at any depth stays inside the bytes announced for it.
-/
namespace ByteSchema

namespace Schema

/-- The room for a value: the size announced for it, or that of every value. -/
def Announces (s : Schema) (v : Value) (n : Nat) : Prop :=
  s.encodeSize v = .ok n ∨ s.size = .ok (.fixed n)

variable {s : Schema}

theorem write_measured (sized : s.Everywhere Sized) (v : Value) :
    Measured (s.write v) (s.image v) (s.Announces v) where
  renders := s.write_renders sized v
  exact h small n hn := by
    rcases hn with hn | hn
    · rw [encodeSize_of_image sized h small] at hn
      exact Except.ok.inj hn
    · exact length_image_of_fixed hn h

/-- The room for the fields, as far as there are values for them. -/
def RoomForFields (fields : List (Field Schema)) (vs : List Value) : Nat → Prop :=
  RoomFor (fun p => p.1.schema.Announces p.2) (fields.zip vs)

private theorem roomForFields_of_encodeSize {sum total : Nat} {fields : List (Field Schema)}
    {vs : List Value} (h : encodeSizeAfter sum fields vs = .ok total) :
    ∃ n, RoomForFields fields vs n ∧ total = sum + n := by
  induction fields generalizing sum vs with
  | nil =>
    cases vs with
    | nil =>
      cases h
      exact ⟨0, trivial, rfl⟩
    | cons v vs => cases h
  | cons f fields ih =>
    cases vs with
    | nil => cases h
    | cons v vs =>
      obtain ⟨k, hk, h⟩ := Outcome.bind_eq_ok.mp h
      obtain ⟨next, hnext, h⟩ := Outcome.bind_eq_ok.mp h
      obtain ⟨-, rfl⟩ := checkedAdd_eq_ok_iff.mp hnext
      obtain ⟨m, hm, rfl⟩ := ih h
      exact ⟨k + m, ⟨k, m, .inl hk, hm, rfl⟩, Nat.add_assoc _ _ _⟩

private theorem roomForFields_of_size {sum total : Nat} {fields : List (Field Schema)}
    (h : sizeAfter (.fixed sum) fields = .ok (.fixed total)) (vs : List Value) :
    ∃ n, RoomForFields fields vs n ∧ total = sum + n := by
  induction fields generalizing sum vs with
  | nil =>
    cases h
    exact ⟨0, trivial, rfl⟩
  | cons f fields ih =>
    obtain ⟨k, hk, h⟩ := sizeAfter_cons_eq_fixed h
    obtain ⟨m, hm, rfl⟩ := ih h vs.tail
    refine ⟨k + m, ?_, Nat.add_assoc _ _ _⟩
    cases vs with
    | nil => trivial
    | cons v vs => exact ⟨k, m, .inr hk, hm, rfl⟩

private theorem writeFields_confines {fields : List (Field Schema)}
    (each : ∀ f ∈ fields, ∀ v, Confines (f.schema.write v) (f.schema.Announces v))
    (measured : ∀ f ∈ fields, ∀ v,
      Measured (f.schema.write v) (f.schema.image v) (f.schema.Announces v)) (vs : List Value) :
    Confines (writeFields fields vs) (RoomForFields fields vs) := by
  induction fields generalizing vs with
  | nil =>
    cases vs with
    | nil => exact .skip
    | cons v vs => exact .refuse _
  | cons f fields ih =>
    cases vs with
    | nil => exact .refuse _
    | cons v vs =>
      have tail := ih (fun g hg => each g (List.mem_cons_of_mem f hg))
        (fun g hg => measured g (List.mem_cons_of_mem f hg)) vs
      apply (each f List.mem_cons_self v).seq (measured f List.mem_cons_self v) fun _ => tail
      intro n ⟨k, m, hk, hm, hn⟩
      exact ⟨k, m, hk, hn, fun _ => hm⟩

private theorem writeCase_confines {header : Header} {label : String} {payload : Value}
    {variants : List (Variant Schema)}
    (each : ∀ w ∈ variants, Confines (w.schema.write payload) (w.schema.Announces payload)) :
    Confines (writeCase header label payload variants) fun n =>
      encodeSizeCase header label payload variants = .ok n ∨
      ∃ tag k, header.size = .ok (.fixed tag) ∧
        (∀ w ∈ variants, w.schema.size = .ok (.fixed k)) ∧ n = tag + k := by
  induction variants with
  | nil => exact .refuse _
  | cons w variants ih =>
    by_cases same : w.label = label
    · simp only [writeCase, encodeSizeCase, if_pos same]
      apply (header.write_confines w.tag).seq (header.write_measured w.tag)
        fun _ => each w List.mem_cons_self
      intro n hn
      rcases hn with hn | ⟨tag, k, htag, hk, rfl⟩
      · obtain ⟨tag, htag, hn⟩ := Outcome.bind_eq_ok.mp hn
        obtain ⟨k, hk, hn⟩ := Outcome.bind_eq_ok.mp hn
        exact ⟨tag, k, .inl htag, (checkedAdd_eq_ok_iff.mp hn).2, fun _ => .inl hk⟩
      · exact ⟨tag, k, .inr htag, rfl, fun _ => .inr (hk w List.mem_cons_self)⟩
    · simp only [writeCase, encodeSizeCase, if_neg same]
      apply (ih fun u hu => each u (List.mem_cons_of_mem w hu)).mono
      intro n hn
      rcases hn with hn | ⟨tag, k, htag, hk, sum⟩
      · exact .inl hn
      · exact .inr ⟨tag, k, htag, fun u hu => hk u (List.mem_cons_of_mem w hu), sum⟩

private theorem writeArray_confines {item : Schema} {length : Length} {vs : List Value}
    {size : Size} (sized : item.Everywhere Sized) (hsize : item.size = .ok size)
    (hitem : ∀ v, Confines (item.write v) (item.Announces v)) :
    Confines (Items.write length (fun offset v => item.write v offset) vs) fun n =>
      Items.encodeSize length item.size (fun sum v => do checkedAdd sum (← item.encodeSize v)) vs =
        .ok n ∨
      Items.size length size = .fixed n := by
  apply Items.write_confines hsize (fun v _ => hitem v) fun v _ => write_measured sized v
  · intro k hk _ _
    exact .inr (hk ▸ hsize)
  · intro v _ sum total h
    obtain ⟨k, hk, h⟩ := Outcome.bind_eq_ok.mp h
    exact ⟨k, .inl hk, (checkedAdd_eq_ok_iff.mp h).2⟩

/-- The room for a pair is that of its key and that of its value. -/
private def PairAnnounces (key value : Schema) (e : Value × Value) (n : Nat) : Prop :=
  ∃ a b, key.Announces e.1 a ∧ value.Announces e.2 b ∧ n = a + b

private theorem writePair_measured {key value : Schema} (keys : key.Everywhere Sized)
    (values : value.Everywhere Sized) (e : Value × Value) :
    Measured (fun offset => key.write e.1 offset >>= value.write e.2)
      (imagePair key value e) (PairAnnounces key value e) where
  renders := (write_renders keys e.1).seq (write_renders values e.2)
  exact h small n hn := by
    obtain ⟨first, second, hfirst, hsecond, rfl⟩ := imagePair_eq_ok_iff.mp h
    obtain ⟨a, b, ha, hb, rfl⟩ := hn
    rw [List.length_append] at small ⊢
    rw [(write_measured keys e.1).exact hfirst (by omega) ha,
      (write_measured values e.2).exact hsecond (by omega) hb]

private theorem writeMap_confines {key value : Schema} {length : Length}
    {entries : List (Value × Value)} {size : Size} (keys : key.Everywhere Sized)
    (values : value.Everywhere Sized) (hsize : Items.pairSize key.size value.size = .ok size)
    (hkey : ∀ v, Confines (key.write v) (key.Announces v))
    (hvalue : ∀ v, Confines (value.write v) (value.Announces v)) :
    Confines (Items.write length (fun offset e => key.write e.1 offset >>= value.write e.2) entries)
      fun n =>
        Items.encodeSize length (Items.pairSize key.size value.size)
          (fun sum e => do
            let sum ← checkedAdd sum (← key.encodeSize e.1)
            checkedAdd sum (← value.encodeSize e.2)) entries = .ok n ∨
        Items.size length size = .fixed n := by
  have pair (e : Value × Value) :
      Confines (fun offset => key.write e.1 offset >>= value.write e.2)
        (PairAnnounces key value e) := by
    apply (hkey e.1).seq (write_measured keys e.1) fun _ => hvalue e.2
    intro n ⟨a, b, ha, hb, sum⟩
    exact ⟨a, b, ha, sum, fun _ => hb⟩
  apply Items.write_confines hsize (fun e _ => pair e) fun e _ => writePair_measured keys values e
  · intro k hk e _
    obtain ⟨x, y, hx, hy, -, sum⟩ := Items.pairSize_eq_fixed_iff.mp (hk ▸ hsize)
    exact ⟨x, y, .inr hx, .inr hy, sum⟩
  · intro e _ sum total h
    obtain ⟨x, hx, h⟩ := Outcome.bind_eq_ok.mp h
    obtain ⟨_, hsum, h⟩ := Outcome.bind_eq_ok.mp h
    obtain ⟨y, hy, h⟩ := Outcome.bind_eq_ok.mp h
    obtain ⟨-, rfl⟩ := checkedAdd_eq_ok_iff.mp hsum
    obtain ⟨-, rfl⟩ := checkedAdd_eq_ok_iff.mp h
    exact ⟨x + y, ⟨x, y, .inl hx, .inl hy, rfl⟩, Nat.add_assoc _ _ _⟩

/-- What the size of a value is told from tells where its parts go as well. -/
theorem write_confines (sized : s.Everywhere Sized) (v : Value) :
    Confines (s.write v) (s.Announces v) := by
  induction s generalizing v with
  | int format => exact .lift fun _ x _ => format.write_confines x
  | float precision order => exact .lift fun _ _ _ => .lift fun _ _ _ => .put _
  | bool header =>
    apply Confines.lift
    intro _ b hb
    apply (header.write_confines b.toNat).mono
    intro n hn
    rcases hn with hn | hn
    · rw [encodeSize, hb] at hn
      exact .inl hn
    · exact .inr hn
  | slot content shape =>
    apply Confines.lift
    intro _ payload hpayload
    apply (shape.write_confines payload).mono
    intro n hn
    rcases hn with hn | hn
    · rw [encodeSize, hpayload] at hn
      exact .inl hn
    · exact .inr (Except.ok.inj hn)
  | constant bytes => exact .lift fun _ _ _ => .put bytes
  | record fields each =>
    apply Confines.lift
    intro _ vs hvs
    apply (writeFields_confines (fun f hf => each f hf (sized.field hf))
      (fun f hf => write_measured (sized.field hf)) vs).mono
    intro n hn
    rcases hn with hn | hn
    · rw [encodeSize, hvs] at hn
      obtain ⟨m, hm, sum⟩ := roomForFields_of_encodeSize hn
      rwa [sum, Nat.zero_add]
    · obtain ⟨m, hm, sum⟩ := roomForFields_of_size hn vs
      rwa [sum, Nat.zero_add]
  | array item length limit hitem =>
    have inside : item.Everywhere Sized := sized.part List.mem_cons_self
    obtain ⟨size, hsize⟩ := inside.here
    apply Confines.lift
    intro _ vs hvs
    apply (writeArray_confines inside hsize (hitem inside)).mono
    intro n hn
    rcases hn with hn | hn
    · rw [encodeSize, hvs] at hn
      exact .inl hn
    · obtain ⟨_, hsize', hn⟩ := array_size_eq_fixed hn
      cases hsize.symm.trans hsize'
      exact .inr hn
  | map kind key value length limit hkey hvalue =>
    obtain ⟨keys, values⟩ := sized.pair
    obtain ⟨_, hsized⟩ := sized.here
    obtain ⟨size, hsize, _⟩ := Outcome.bind_eq_ok.mp hsized
    apply Confines.lift
    intro _ entries hentries
    apply (writeMap_confines keys values hsize (hkey keys) (hvalue values)).mono
    intro n hn
    rcases hn with hn | hn
    · rw [encodeSize, hentries] at hn
      exact .inl hn
    · obtain ⟨_, hsize', hn⟩ := map_size_eq_fixed hn
      cases hsize.symm.trans hsize'
      exact .inr hn
  | option header inner hinner =>
    have inside : inner.Everywhere Sized := sized.part List.mem_cons_self
    apply Confines.lift
    intro _ o ho
    cases o with
    | none =>
      apply (header.write_confines 0).mono
      intro n hn
      rcases hn with hn | hn
      · rw [encodeSize, ho] at hn
        exact .inl hn
      · cases hn
    | some w =>
      apply (header.write_confines 1).seq (header.write_measured 1) fun _ => hinner inside w
      intro n hn
      rcases hn with hn | hn
      · obtain ⟨_, ho', hn⟩ := Outcome.bind_eq_ok.mp hn
        cases ho.symm.trans ho'
        obtain ⟨tag, htag, hn⟩ := Outcome.bind_eq_ok.mp hn
        obtain ⟨k, hk, hn⟩ := Outcome.bind_eq_ok.mp hn
        exact ⟨tag, k, .inl htag, (checkedAdd_eq_ok_iff.mp hn).2, fun _ => .inl hk⟩
      · cases hn
  | union header variants each =>
    apply Confines.lift
    intro _ c hc
    apply (writeCase_confines fun w hw => each w hw (sized.variant hw) c.2).mono
    intro n hn
    rcases hn with hn | hn
    · rw [encodeSize, hc] at hn
      exact .inl hn
    · exact .inr (union_size_eq_fixed hn)
  | framed inner header limit hinner =>
    have inside : inner.Everywhere Sized := sized.part List.mem_cons_self
    apply Frame.write_confines header.write_confines header.write_measured (hinner inside v)
      (write_measured inside v)
    intro len known n hn
    rcases hn with hn | hn
    · obtain ⟨_, hlen, hn⟩ := Outcome.bind_eq_ok.mp hn
      obtain ⟨outer, houter, hn⟩ := Outcome.bind_eq_ok.mp hn
      cases known.symm.trans hlen
      exact ⟨outer, len, .inl houter, .inl known, (checkedAdd_eq_ok_iff.mp hn).2⟩
    · obtain ⟨x, y, hx, hy, rfl⟩ := framed_size_eq_fixed hn
      exact ⟨x, y, .inr hx, .inr hy, rfl⟩
  | converted conversion inner hinner =>
    have inside : inner.Everywhere Sized := sized.part List.mem_cons_self
    apply (hinner inside (conversion.store v)).mono
    intro n hn
    rcases hn with hn | hn
    · obtain ⟨size, hsize, hn⟩ := Outcome.bind_eq_ok.mp hn
      cases size with
      | fixed k =>
        cases hn
        exact .inr hsize
      | varying => exact .inl hn
    · exact .inr hn

/-- A failing write leaves every byte below its offset as it was.  Where a size is announced for the
value, every byte behind that is left, too, and the buffer has grown no further. -/
theorem failing_write_confined (s : Schema) (sized : s.Everywhere Sized) (v : Value)
    (buffer : Bytes) (offset : Nat) (e : Failure) (after : Bytes)
    (failed : (s.write v offset).run buffer = .error e after) :
    (buffer.size ≤ after.size ∧ ∀ i < buffer.size, i < offset → after[i]? = buffer[i]?) ∧
    ∀ n, s.encodeSize v = .ok n ∨ s.size = .ok (.fixed n) →
      after.size ≤ max buffer.size (offset + n) ∧
      ∀ i < buffer.size, offset + n ≤ i → after[i]? = buffer[i]? := by
  have held := (write_confines sized v).held failed
  constructor
  · obtain ⟨stop, confined⟩ := held.below
    exact ⟨confined.grown, fun i old before => confined.kept i old (.inl before)⟩
  · intro n announced
    have confined := held.within n announced
    exact ⟨confined.size, fun i old behind => confined.kept i old (.inr behind)⟩

/-- `packetValue` with a number that does not fit into the second field. -/
def oversizedValue : Value :=
  .list
    [.case "data" (.list [.int 299, .bool true]),
      .map [(.text "0aff", .int 40000), (.text "", .int 5)],
      .list [.absent, .present (.int 128)]]

set_option maxRecDepth 4000 in
theorem failing_write_confined_packet :
    packet.Everywhere Sized ∧ packet.encodeSize oversizedValue = .ok 22 ∧
    ∃ after, (packet.write oversizedValue 1).run (Array.replicate 25 9) =
        .error (.error (.intOutOfRange "i16" 40000 (-32768) 32767)) after ∧
      after[0]? = some 9 ∧ after[11]? = some 0 ∧ after[24]? = some 9 ∧ after.size ≤ 25 := by
  have announced : packet.encodeSize oversizedValue = .ok 22 := rfl
  have failed : (packet.write oversizedValue 1).run (Array.replicate 25 9) =
      .error (.error (.intOutOfRange "i16" 40000 (-32768) 32767))
        #[9, 1, 20, 7, 172, 2, 1, 0, 2, 10, 255, 0, 9, 9, 9, 9, 9, 9, 9, 9, 9, 9, 9, 9, 9] := rfl
  obtain ⟨⟨_, below⟩, within⟩ :=
    failing_write_confined packet packet_sized oversizedValue _ 1 _ _ failed
  obtain ⟨size, behind⟩ := within 22 (.inl announced)
  refine ⟨packet_sized, announced, _, failed, ?_, rfl, ?_, size⟩
  · exact below 0 (by decide) (by decide)
  · exact behind 24 (by decide) (by decide)

end Schema
end ByteSchema
