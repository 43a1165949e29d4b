import ByteSchema.Proofs.ReadingBounds

/-!
# Reading looks at nothing behind its stop

Two inputs that hold the same bytes up to a stop are the same to every read that ends there, unless
something in the schema goes on to the end of the input.  Frames read such a thing from their own
slice, so what is inside of them does not matter here.
-/
namespace ByteSchema

open Bytes Reading

namespace Bytes

/-- What stands in the first input up to the stop stands in the other one, too. -/
def Shares (bytes other : Bytes) (stop : Nat) : Prop :=
  ∀ ⦃a b : Nat⦄ ⦃bs : List UInt8⦄, b ≤ stop → Spans bytes a bs b → Spans other a bs b

variable {bytes other : Bytes} {offset stop : Nat}

theorem Shares.mono {earlier : Nat} (h : Shares bytes other stop) (le : earlier ≤ stop) :
    Shares bytes other earlier :=
  fun _ _ _ before spans => h (Nat.le_trans before le) spans

private theorem extract_append_of_le {b : Nat} (bytes more : Bytes) (a : Nat)
    (le : b ≤ bytes.size) : (bytes ++ more).extract a b = bytes.extract a b := by
  have none : b - bytes.size = 0 := Nat.sub_eq_zero_of_le le
  rw [Array.extract_append, none, Array.extract_zero, Array.append_empty]

theorem shares_append (bytes more : Bytes) (stop : Nat) : Shares bytes (bytes ++ more) stop := by
  intro a b bs _ spans
  refine ⟨spans.stop_eq, ?_, spans.room, ?_⟩
  · rw [Array.size_append]
    exact Nat.le_add_right_of_le spans.inside
  · rw [extract_append_of_le _ _ _ spans.inside]
    exact spans.content

theorem shares_front (front rest : Bytes) (le : stop ≤ front.size) :
    Shares (front ++ rest) front stop := by
  intro a b bs before spans
  have inside := Nat.le_trans before le
  refine ⟨spans.stop_eq, inside, spans.room, ?_⟩
  rw [← extract_append_of_le front rest a inside]
  exact spans.content

theorem Shares.window {len : Nat} {found : Bytes} (h : bytes.window offset len = .ok found)
    (shares : Shares bytes other (offset + len)) : other.window offset len = .ok found := by
  obtain ⟨spans, small, size⟩ := window_spans h
  have same := (shares (Nat.le_refl _) spans).window small
  rwa [Array.length_toList, size, Array.toArray_toList] at same

end Bytes

/-- What one reader answers with a stop up to `last`, another one answers as well. -/
def Reading.AgreesUpTo {α : Type} (last : Nat) (item item' : Nat → Reading (α × Nat)) : Prop :=
  ∀ {l x a b}, item a = ⟨l, .ok (x, b)⟩ → b ≤ last → item' a = ⟨l, .ok (x, b)⟩

variable {bytes other : Bytes} {offset stop last : Nat} {log : List Event}

theorem Frame.count_shares {reader : Bytes → Nat → Reading (Nat × Nat)} {admits : Nat → Prop}
    {image : Nat → Outcome (List UInt8)} (counts : Frame.Counts reader admits image) {n : Nat}
    (h : reader bytes offset = ⟨log, .ok (n, stop)⟩) (shares : Shares bytes other stop) :
    reader other offset = ⟨log, .ok (n, stop)⟩ := by
  obtain ⟨rfl, fits, admitted, bs, himage, spans, small⟩ := counts.mp h
  exact counts.mpr ⟨rfl, fits, admitted, bs, himage, shares (Nat.le_refl _) spans, small⟩

theorem Header.readCount_shares {header : Header} {n : Nat}
    (h : header.readCount bytes offset = ⟨log, .ok (n, stop)⟩) (shares : Shares bytes other stop) :
    header.readCount other offset = ⟨log, .ok (n, stop)⟩ :=
  Frame.count_shares header.readCount_counts h shares

/-- Two inputs that hold the same bytes up to the stop, and end together if the first one ends
there and something goes on to its end. -/
structure Bytes.Alike (closed : Bool) (bytes other : Bytes) (last : Nat) : Prop where
  shares : Shares bytes other last
  ends : closed = true ∨ (bytes.size ≤ last → other.size = bytes.size)

theorem Bytes.Alike.imp {closed closed' : Bool} (h : Alike closed bytes other last)
    (inside : closed = true → closed' = true) : Alike closed' bytes other last :=
  ⟨h.shares, h.ends.imp_left inside⟩

theorem Slot.read_agrees {slot : Slot}
    (alike : Alike (slot.length != .remainder) bytes other last) :
    AgreesUpTo last (slot.read bytes) (slot.read other) := by
  intro log payload offset stop h before
  have shares := alike.shares.mono before
  cases hlength : slot.length with
  | fixed n =>
    obtain ⟨rfl, found, hwindow, rfl, rfl⟩ := (Slot.read_fixed_eq_ok_iff hlength).mp h
    exact (Slot.read_fixed_eq_ok_iff hlength).mpr ⟨rfl, found, shares.window hwindow, rfl, rfl⟩
  | counted header =>
    obtain ⟨rfl, len, middle, found, hheader, within, hwindow, rfl, rfl⟩ :=
      (Slot.read_counted_eq_ok_iff hlength).mp h
    have front := Header.readCount_shares hheader (shares.mono (Nat.le_add_right middle len))
    exact (Slot.read_counted_eq_ok_iff hlength).mpr
      ⟨rfl, len, middle, found, front, within, shares.window hwindow, rfl, rfl⟩
  | remainder =>
    obtain ⟨rfl, found, hrest, rfl, rfl⟩ := (Slot.read_remainder_eq_ok_iff hlength).mp h
    have size : other.size = bytes.size :=
      alike.ends.resolve_left (by simp [hlength]) (by omega)
    have same : other.rest offset = .ok found := by
      rw [rest, size]
      exact shares.window hrest
    exact (Slot.read_remainder_eq_ok_iff hlength).mpr ⟨rfl, found, same, rfl, by rw [size]⟩

theorem Items.read_agrees {α : Type} {length : Length} {limit : Limit} {size : Outcome Size}
    {item item' : Nat → Reading (α × Nat)} (alike : Alike (length != .remainder) bytes other last)
    (stays : ∀ {l x a b}, item a = ⟨l, .ok (x, b)⟩ → a ≤ b) (each : AgreesUpTo last item item') :
    AgreesUpTo last (Items.read length limit size item bytes)
      (Items.read length limit size item' other) := by
  intro log items offset stop h before
  cases length with
  | fixed n =>
    obtain ⟨known, rfl, walk⟩ := read_fixed_eq_ok_iff.mp h
    exact read_fixed_eq_ok_iff.mpr ⟨known, rfl, walk.transport before stays each⟩
  | counted header =>
    obtain ⟨known, start, hheader, within, walk⟩ := read_counted_eq_ok_iff.mp h
    have behind := walk.related Nat.le_refl (fun _ _ _ => Nat.le_trans) stays
    have front := Header.readCount_shares hheader
      (alike.shares.mono (Nat.le_trans behind before))
    exact read_counted_eq_ok_iff.mpr
      ⟨known, start, front, within, walk.transport before stays each⟩
  | remainder =>
    obtain ⟨inside, small, known, loop⟩ := read_remainder_eq_ok_iff.mp h
    obtain ⟨few, ended, walk⟩ := toEnd_eq_ok_iff.mp loop
    have same : other.size = bytes.size :=
      alike.ends.resolve_left (by simp) (Nat.le_trans ended before)
    rw [read_remainder_eq_ok_iff, same, toEnd_eq_ok_iff]
    exact ⟨inside, small, known, few, ended, walk.transport before stays each⟩

namespace Schema

mutual

/-- Nothing goes on to the end of the input, unless it is in a frame, where it may stand
anywhere. -/
def delimited : Schema → Bool
  | int _ | float _ _ | bool _ | constant _ | framed _ _ _ => true
  | slot _ shape => shape.length != .remainder
  | record fields => fieldsDelimited fields
  | array item length _ => length != .remainder && item.delimited
  | map _ key value length _ => length != .remainder && (key.delimited && value.delimited)
  | option _ inner => inner.delimited
  | union _ variants => variantsDelimited variants
  | converted _ inner => inner.delimited

def fieldsDelimited : List (Field Schema) → Bool
  | [] => true
  | f :: fields => f.schema.delimited && fieldsDelimited fields

def variantsDelimited : List (Variant Schema) → Bool
  | [] => true
  | v :: variants => v.schema.delimited && variantsDelimited variants

end

variable {s : Schema} {v : Value}

theorem field_delimited {fields : List (Field Schema)} {f : Field Schema}
    (h : (record fields).delimited = true) (hf : f ∈ fields) : f.schema.delimited = true := by
  induction fields with
  | nil => cases hf
  | cons g fields ih =>
    obtain ⟨here, behind⟩ := Bool.and_eq_true_iff.mp h
    cases hf with
    | head => exact here
    | tail _ hf => exact ih behind hf

theorem variant_delimited {header : Header} {variants : List (Variant Schema)}
    {w : Variant Schema} (h : (union header variants).delimited = true) (hw : w ∈ variants) :
    w.schema.delimited = true := by
  induction variants with
  | nil => cases hw
  | cons u variants ih =>
    obtain ⟨here, behind⟩ := Bool.and_eq_true_iff.mp h
    cases hw with
    | head => exact here
    | tail _ hw => exact ih behind hw

theorem array_delimited {item : Schema} {length : Length} {limit : Limit}
    (h : (array item length limit).delimited = true) :
    length ≠ .remainder ∧ item.delimited = true := by
  obtain ⟨bounded, below⟩ := Bool.and_eq_true_iff.mp h
  exact ⟨bne_iff_ne.mp bounded, below⟩

theorem map_delimited {kind : MapKind} {key value : Schema} {length : Length} {limit : Limit}
    (h : (map kind key value length limit).delimited = true) :
    length ≠ .remainder ∧ key.delimited = true ∧ value.delimited = true := by
  obtain ⟨bounded, below⟩ := Bool.and_eq_true_iff.mp h
  exact ⟨bne_iff_ne.mp bounded, Bool.and_eq_true_iff.mp below⟩

private theorem readFields_agrees {fields : List (Field Schema)}
    (each : ∀ f ∈ fields, AgreesUpTo last (f.schema.read bytes) (f.schema.read other)) :
    AgreesUpTo last (readFields fields bytes) (readFields fields other) := by
  intro log vs offset stop h before
  induction fields generalizing offset vs log with
  | nil =>
    cases h
    rfl
  | cons f fields ih =>
    obtain ⟨w, middle, rest, l, m, head, tail, rfl, rfl⟩ := readFields_cons_eq_ok_iff.mp h
    have first := each f List.mem_cons_self head (Nat.le_trans (readFields_le tail) before)
    have second := ih (fun g hg => each g (List.mem_cons_of_mem f hg)) tail
    exact readFields_cons_eq_ok_iff.mpr ⟨w, middle, rest, l, m, first, second, rfl, rfl⟩

private theorem readCase_agrees {tag : Nat} {variants : List (Variant Schema)}
    (each : ∀ w ∈ variants, AgreesUpTo last (w.schema.read bytes) (w.schema.read other)) :
    AgreesUpTo last (readCase tag variants bytes) (readCase tag variants other) := by
  intro log v offset stop h before
  induction variants with
  | nil => exact absurd h readCase_nil_ne_ok
  | cons w variants ih =>
    rw [readCase_cons_eq_ok_iff] at h ⊢
    rcases h with ⟨same, payload, rfl, hread⟩ | ⟨differs, h⟩
    · exact .inl ⟨same, payload, rfl, each w List.mem_cons_self hread before⟩
    · exact .inr ⟨differs, ih (fun u hu => each u (List.mem_cons_of_mem w hu)) h⟩

theorem readPair_agrees {key value : Schema}
    (hkey : AgreesUpTo last (key.read bytes) (key.read other))
    (hvalue : AgreesUpTo last (value.read bytes) (value.read other)) :
    AgreesUpTo last (readPair key value bytes) (readPair key value other) := by
  intro log e offset stop h before
  obtain ⟨middle, l, m, first, second, rfl⟩ := readPair_eq_ok_iff.mp h
  exact readPair_eq_ok_iff.mpr ⟨middle, l, m, hkey first (Nat.le_trans (read_le second) before),
    hvalue second before, rfl⟩

/-- By induction over the schema.  Only what stands outside of every frame may look at the end of
the input. -/
theorem read_agrees (alike : Alike s.delimited bytes other last) :
    AgreesUpTo last (s.read bytes) (s.read other) := by
  intro log v offset stop h before
  have shares := alike.shares.mono before
  induction s generalizing offset stop v log with
  | int format =>
    obtain ⟨rfl, x, rfl, bs, himage, spans, small⟩ := read_int_eq_ok_iff.mp h
    exact read_int_eq_ok_iff.mpr ⟨rfl, x, rfl, bs, himage, shares (Nat.le_refl _) spans, small⟩
  | float precision order =>
    obtain ⟨rfl, x, rfl, same, bs, himage, spans, small⟩ := read_float_eq_ok_iff.mp h
    exact read_float_eq_ok_iff.mpr
      ⟨rfl, x, rfl, same, bs, himage, shares (Nat.le_refl _) spans, small⟩
  | bool header =>
    obtain ⟨b, rfl, hcount⟩ := read_bool_eq_ok_iff.mp h
    exact read_bool_eq_ok_iff.mpr ⟨b, rfl, Header.readCount_shares hcount shares⟩
  | slot content shape =>
    obtain ⟨payload, hread, hvalue⟩ := read_slot_eq_ok_iff.mp h
    exact read_slot_eq_ok_iff.mpr ⟨payload, Slot.read_agrees alike hread before, hvalue⟩
  | constant expected =>
    obtain ⟨rfl, rfl, spans, small⟩ := read_constant_eq_ok_iff.mp h
    exact read_constant_eq_ok_iff.mpr ⟨rfl, rfl, shares (Nat.le_refl _) spans, small⟩
  | record fields each =>
    obtain ⟨vs, rfl, hread⟩ := read_record_eq_ok_iff.mp h
    have parts : ∀ f ∈ fields, AgreesUpTo last (f.schema.read bytes) (f.schema.read other) := by
      intro f hf log v offset stop hone before
      exact each f hf (alike.imp fun closed => field_delimited closed hf) hone before
        (alike.shares.mono before)
    exact read_record_eq_ok_iff.mpr ⟨vs, rfl, readFields_agrees parts hread before⟩
  | array item length limit hitem =>
    obtain ⟨vs, rfl, hread⟩ := read_array_eq_ok_iff.mp h
    have counted := alike.imp fun closed => bne_iff_ne.mpr (array_delimited closed).1
    have items : AgreesUpTo last (item.read bytes) (item.read other) := by
      intro log v offset stop hone before
      exact hitem (alike.imp fun closed => (array_delimited closed).2) hone before
        (alike.shares.mono before)
    exact read_array_eq_ok_iff.mpr ⟨vs, rfl, Items.read_agrees counted read_le items hread before⟩
  | map kind key value length limit hkey hvalue =>
    obtain ⟨pairs, entries, l, m, rfl, hread, hgather, rfl⟩ := read_map_eq_ok_iff.mp h
    have counted := alike.imp fun closed => bne_iff_ne.mpr (map_delimited closed).1
    have keys : AgreesUpTo last (key.read bytes) (key.read other) := by
      intro log v offset stop hone before
      exact hkey (alike.imp fun closed => (map_delimited closed).2.1) hone before
        (alike.shares.mono before)
    have values : AgreesUpTo last (value.read bytes) (value.read other) := by
      intro log v offset stop hone before
      exact hvalue (alike.imp fun closed => (map_delimited closed).2.2) hone before
        (alike.shares.mono before)
    exact read_map_eq_ok_iff.mpr ⟨pairs, entries, l, m, rfl,
      Items.read_agrees counted readPair_le (readPair_agrees keys values) hread before, hgather,
      rfl⟩
  | option header inner hinner =>
    rw [read_option_eq_ok_iff] at h ⊢
    rcases h with ⟨rfl, hcount⟩ | ⟨w, middle, rfl, hcount, hread⟩
    · exact .inl ⟨rfl, Header.readCount_shares hcount shares⟩
    · have front := Header.readCount_shares hcount (shares.mono (read_le hread))
      exact .inr ⟨w, middle, rfl, front, hinner alike hread before shares⟩
  | union header variants each =>
    obtain ⟨tag, middle, hcount, hcase⟩ := read_union_eq_ok_iff.mp h
    have parts : ∀ w ∈ variants, AgreesUpTo last (w.schema.read bytes) (w.schema.read other) := by
      intro w hw log v offset stop hone before
      exact each w hw (alike.imp fun closed => variant_delimited closed hw) hone before
        (alike.shares.mono before)
    have front := Header.readCount_shares hcount (shares.mono (readCase_le hcase))
    exact read_union_eq_ok_iff.mpr ⟨tag, middle, front, readCase_agrees parts hcase before⟩
  | framed inner header limit hinner =>
    -- The payload is read from its own slice, which is the same in both inputs.
    obtain ⟨outer, payload, middle, within, admits, houter, first, second, small, hread⟩ :=
      read_framed_eq_ok_iff.mp h
    exact read_framed_eq_ok_iff.mpr ⟨outer, payload, middle, within, admits, houter,
      shares second.le first, shares (Nat.le_refl _) second, small, hread⟩
  | converted conversion inner hinner =>
    obtain ⟨w, rfl, hread⟩ := read_converted_eq_ok_iff.mp h
    exact read_converted_eq_ok_iff.mpr ⟨w, rfl, hinner alike hread before shares⟩

/-- Whatever the schema answers, it answers on every other input with the same bytes up to there. -/
def ReadsShared (s : Schema) : Prop :=
  ∀ {bytes other : Bytes} {offset stop : Nat} {v : Value} {log : List Event},
    s.read bytes offset = ⟨log, .ok (v, stop)⟩ → Shares bytes other stop →
      s.read other offset = ⟨log, .ok (v, stop)⟩

theorem read_shares (closed : s.delimited = true) : s.ReadsShared :=
  fun h shares => read_agrees ⟨shares, .inl closed⟩ h (Nat.le_refl _)

end Schema
end ByteSchema
