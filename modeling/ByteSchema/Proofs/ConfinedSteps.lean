import ByteSchema.Proofs.ItemImages

/-!
# Failing steps and the room they stay in

A step that fails may have written some of its parts.  Where a room was announced for each part, the
parts that were written take just their room, so that what is left in the buffer stays in the room
of the whole.  Faults are failures here like errors are.
-/
namespace ByteSchema

open Bytes

namespace Bytes

/-- `after` is the buffer, grown to `stop` at most, but for the bytes from `start` to `stop`. -/
structure Confined (buffer : Bytes) (start stop : Nat) (after : Bytes) : Prop where
  grown : buffer.size ≤ after.size
  size : after.size ≤ max buffer.size stop
  kept : ∀ i < buffer.size, i < start ∨ stop ≤ i → after[i]? = buffer[i]?

variable {buffer middle after : Bytes} {start stop start' stop' : Nat}

theorem Confined.refl (buffer : Bytes) (start stop : Nat) : Confined buffer start stop buffer where
  grown := Nat.le_refl _
  size := Nat.le_max_left _ _
  kept _ _ _ := rfl

theorem Confined.widen (h : Confined buffer start stop after) (hstart : start' ≤ start)
    (hstop : stop ≤ stop') : Confined buffer start' stop' after where
  grown := h.grown
  size := by
    have := h.size
    omega
  kept i old outside := by
    apply h.kept i old
    omega

theorem Confined.trans (h : Confined buffer start stop middle)
    (h' : Confined middle start stop after) : Confined buffer start stop after where
  grown := Nat.le_trans h.grown h'.grown
  size := by
    have := h.size
    have := h'.size
    omega
  kept i old outside := by
    rw [h'.kept i (Nat.lt_of_lt_of_le old h.grown) outside]
    exact h.kept i old outside

theorem Spliced.confined {offset : Nat} {bs : List UInt8} (h : Spliced buffer offset bs after) :
    Confined buffer offset (offset + bs.length) after := by
  rcases h with ⟨_, rfl⟩ | ⟨_, rfl⟩
  · constructor
    · rw [size_splice]
      exact Nat.le_max_left _ _
    · exact Nat.le_of_eq (size_splice buffer offset bs)
    · intro i old outside
      have elsewhere : ¬ (offset ≤ i ∧ i < offset + bs.length) := by omega
      rw [getElem?_splice, if_neg elsewhere, if_pos old]
  · exact .refl _ _ _

/-- Nothing below the offset was changed, and nothing outside of any room there was. -/
structure Held (buffer : Bytes) (offset : Nat) (room : Nat → Prop) (after : Bytes) : Prop where
  below : ∃ stop, Confined buffer offset stop after
  within : ∀ n, room n → Confined buffer offset (offset + n) after

theorem Held.refl (buffer : Bytes) (offset : Nat) (room : Nat → Prop) :
    Held buffer offset room buffer where
  below := ⟨offset, .refl buffer _ _⟩
  within _ _ := .refl buffer _ _

end Bytes

variable {α : Type}

/-- Where the step fails, what it leaves in the buffer is held in its room. -/
structure Confines (step : Nat → Writing Nat) (room : Nat → Prop) : Prop where
  held : ∀ {offset : Nat} {buffer after : Bytes} {e : Failure},
    (step offset).run buffer = .error e after → Held buffer offset room after

/-- The step renders an image that takes just the room there is for it. -/
structure Measured (step : Nat → Writing Nat) (image : Outcome (List UInt8)) (room : Nat → Prop) :
    Prop where
  renders : Renders step image
  exact : ∀ {bs : List UInt8}, image = .ok bs → bs.length < addressSpace → ∀ {n}, room n →
    bs.length = n

/-- Room for each of the items, one behind the other. -/
def RoomFor (room : α → Nat → Prop) : List α → Nat → Prop
  | [], _ => True
  | a :: as, n => ∃ k m, room a k ∧ RoomFor room as m ∧ n = k + m

/-- Items that each have the same room have it as many times. -/
theorem roomFor_of_each {room : α → Nat → Prop} {items : List α} {k : Nat}
    (each : ∀ a ∈ items, room a k) : RoomFor room items (items.length * k) := by
  induction items with
  | nil => trivial
  | cons a items ih =>
    refine ⟨k, items.length * k, each a List.mem_cons_self, ?_, ?_⟩
    · exact ih fun b hb => each b (List.mem_cons_of_mem a hb)
    · rw [List.length_cons, Nat.succ_mul, Nat.add_comm]

theorem Measured.put (bs : List UInt8) :
    Measured (fun offset => Writing.put offset bs) (.ok bs) (· = bs.length) where
  renders := .put bs
  exact h _ _ hn := by
    cases h
    exact hn.symm

namespace Confines

variable {first : Nat → Writing Nat} {x : Outcome (List UInt8)} {r r' room : Nat → Prop}

theorem mono (h : Confines first r) (weaker : ∀ n, room n → r n) : Confines first room where
  held failed :=
    ⟨(h.held failed).below, fun n hn => (h.held failed).within n (weaker n hn)⟩

theorem skip : Confines (fun offset => pure offset) room where
  held failed := by cases failed

theorem refuse (e : Failure) : Confines (fun _ => Writing.of (.error e)) room where
  held failed := by
    cases failed
    exact .refl _ _ room

/-- The address is computed before room is made for the bytes. -/
theorem put (bs : List UInt8) : Confines (fun offset => Writing.put offset bs) room := by
  constructor
  intro offset buffer after e failed
  change (Writing.put offset bs).run buffer = .error e after at failed
  unfold Writing.put Writing.reserve at failed
  cases h : checkedAdd offset bs.length with
  | error e' =>
    rw [h] at failed
    cases failed
    exact .refl buffer offset room
  | ok stop =>
    rw [h] at failed
    cases failed

/-- An outcome that the step depends on is known before the buffer is touched. -/
theorem lift {o : Nat → Outcome α} {step : α → Nat → Writing Nat}
    (h : ∀ offset a, o offset = .ok a → Confines (step a) room) :
    Confines (fun offset => (liftM (o offset) : Writing α) >>= fun a => step a offset) room := by
  constructor
  intro offset buffer after e failed
  rw [EStateM.run_bind, Writing.run_lift] at failed
  cases ho : o offset with
  | error e' =>
    rw [ho] at failed
    cases failed
    exact .refl buffer offset room
  | ok a =>
    rw [ho] at failed
    exact (h offset a ho).held failed

/-- The first step takes its own room and leaves the rest of it to the second; where the first has
failed, nothing is asked of the rest. -/
theorem seq {second : Nat → Nat → Writing Nat} (hfirst : Confines first r)
    (measured : Measured first x r) (hsecond : ∀ start, Confines (second start) r')
    (split : ∀ n, room n → ∃ a b, r a ∧ n = a + b ∧ ((∃ bs, x = .ok bs) → r' b)) :
    Confines (fun offset => first offset >>= second offset) room := by
  constructor
  intro offset buffer after e failed
  rw [EStateM.run_bind] at failed
  cases h : (first offset).run buffer with
  | error e' after' =>
    rw [h] at failed
    cases failed
    refine ⟨(hfirst.held h).below, fun n hn => ?_⟩
    obtain ⟨a, b, ha, rfl, -⟩ := split n hn
    exact ((hfirst.held h).within a ha).widen (Nat.le_refl _) (by omega)
  | ok start middle =>
    rw [h] at failed
    obtain ⟨bs, himage, rfl, spliced⟩ := measured.renders.sound h
    obtain ⟨⟨stop, behind⟩, within⟩ := (hsecond offset).held failed
    constructor
    · refine ⟨max stop (offset + bs.length), ?_⟩
      apply (spliced.confined.widen (Nat.le_refl _) (Nat.le_max_right _ _)).trans
      exact behind.widen (Nat.le_add_right _ _) (Nat.le_max_left _ _)
    · intro n hn
      obtain ⟨a, b, ha, rfl, hb⟩ := split n hn
      have length := measured.exact himage spliced.length_lt ha
      apply (spliced.confined.widen (Nat.le_refl _) (by omega)).trans
      exact (within b (hb ⟨bs, himage⟩)).widen (Nat.le_add_right _ _) (by omega)

theorem fold {items : List α} {step : Nat → α → Writing Nat} {image : α → Outcome (List UInt8)}
    {room : α → Nat → Prop} (each : ∀ a ∈ items, Confines (fun offset => step offset a) (room a))
    (measured : ∀ a ∈ items, Measured (fun offset => step offset a) (image a) (room a)) :
    Confines (fun offset => items.foldlM step offset) (RoomFor room items) := by
  induction items with
  | nil => exact skip
  | cons a items ih =>
    have tail := ih (fun b hb => each b (List.mem_cons_of_mem a hb)) fun b hb =>
      measured b (List.mem_cons_of_mem a hb)
    apply (each a List.mem_cons_self).seq (measured a List.mem_cons_self) fun _ => tail
    intro n ⟨k, m, hk, hm, hn⟩
    exact ⟨k, m, hk, hn, fun _ => hm⟩

end Confines

theorem IntFormat.write_confines (format : IntFormat) (v : Int) {room : Nat → Prop} :
    Confines (format.write v) room := by
  apply Confines.lift
  intro _ _ _
  cases format with
  | word signed width order => exact .put _
  | compact => exact .put _

namespace Frame

/-- A frame has the room of its length and that of its payload, which is written by its announced
size. -/
theorem write_confines {header : Nat → Nat → Writing Nat} {payload : Nat → Writing Nat}
    {headerImage : Nat → Outcome (List UInt8)} {payloadImage : Outcome (List UInt8)}
    {size : Outcome Nat} {headerRoom : Nat → Nat → Prop} {payloadRoom room : Nat → Prop}
    (hheader : ∀ n, Confines (header n) (headerRoom n))
    (mheader : ∀ n, Measured (header n) (headerImage n) (headerRoom n))
    (hpayload : Confines payload payloadRoom) (mpayload : Measured payload payloadImage payloadRoom)
    (split : ∀ len, size = .ok len → ∀ n, room n →
      ∃ a b, headerRoom len a ∧ payloadRoom b ∧ n = a + b) :
    Confines (Frame.write header size payload) room := by
  apply Confines.lift
  intro _ len known
  -- Behind the payload nothing is written any more.
  have check (start : Nat) : Confines (fun stop => do
      let written ← checkedSub stop start
      if written = len then return stop
      else Writing.of (Outcome.abort .writtenLength)) (fun _ => True) := by
    apply Confines.lift (o := fun stop => checkedSub stop start)
    intro _ written _
    by_cases same : written = len
    · simp only [if_pos same]
      exact .skip
    · simp only [if_neg same]
      exact .refuse _
  have checked := hpayload.seq mpayload check fun n hn => ⟨n, 0, hn, rfl, fun _ => trivial⟩
  apply (hheader len).seq (mheader len) fun _ => checked
  intro n hn
  obtain ⟨a, b, ha, hb, sum⟩ := split len known n hn
  exact ⟨a, b, ha, sum, fun _ => hb⟩

end Frame

namespace Header

/-- The room for a count: the size announced for it, or that of every count. -/
def Announces (header : Header) (count n : Nat) : Prop :=
  header.encodeSize count = .ok n ∨ header.size = .ok (.fixed n)

theorem write_measured (header : Header) (count : Nat) :
    Measured (header.write count) (header.image count) (header.Announces count) where
  renders := header.write_renders count
  exact h small n hn := by
    rcases hn with hn | hn
    · rw [encodeSize_of_image h small] at hn
      exact Except.ok.inj hn
    · exact length_image_of_fixed hn h

theorem write_confines (header : Header) (count : Nat) :
    Confines (header.write count) (header.Announces count) := by
  induction header generalizing count with
  | plain format => exact format.write_confines count
  | framed inner header limit hinner hheader =>
    apply Frame.write_confines hheader header.write_measured (hinner count)
      (inner.write_measured count)
    intro len known n hn
    rcases hn with hn | hn
    · obtain ⟨_, hlen, hn⟩ := Outcome.bind_eq_ok.mp hn
      obtain ⟨outer, houter, hn⟩ := Outcome.bind_eq_ok.mp hn
      cases known.symm.trans hlen
      exact ⟨outer, len, .inl houter, .inl known, (checkedAdd_eq_ok_iff.mp hn).2⟩
    · obtain ⟨x, y, hx, hy, rfl⟩ := size_framed_eq_fixed hn
      exact ⟨x, y, .inr hx, .inr hy, rfl⟩

end Header

namespace Length

/-- The room for a count, which takes none where no header holds it. -/
def Announces (length : Length) (count n : Nat) : Prop :=
  match length with
  | counted header => header.Announces count n
  | _ => n = 0

theorem write_measured (length : Length) (count : Nat) :
    Measured (length.writeCount count) (length.image count) (length.Announces count) where
  renders := length.writeCount_renders count
  exact h small n hn := by
    cases length with
    | fixed k =>
      obtain ⟨_, _, h⟩ := Outcome.bind_eq_ok.mp h
      cases h
      exact hn.symm
    | counted header => exact (header.write_measured count).exact h small hn
    | remainder =>
      cases h
      exact hn.symm

theorem write_confines (length : Length) (count : Nat) :
    Confines (length.writeCount count) (length.Announces count) := by
  cases length with
  | fixed k => exact .lift fun _ _ _ => .skip
  | counted header => exact header.write_confines count
  | remainder => exact .skip

theorem announces_of_countSize {length : Length} {count n : Nat}
    (h : length.countSize count = .ok n) : length.Announces count n := by
  cases length with
  | fixed k =>
    obtain ⟨_, _, h⟩ := Outcome.bind_eq_ok.mp h
    cases h
    rfl
  | counted header => exact .inl h
  | remainder =>
    cases h
    rfl

end Length

theorem Slot.write_confines (slot : Slot) (payload : List UInt8) :
    Confines (slot.write payload) fun n =>
      slot.encodeSize (.ok payload) = .ok n ∨ slot.size = .fixed n := by
  unfold Slot.write
  cases hlength : slot.length with
  | fixed k =>
    by_cases long : k < payload.length
    · simp only [if_pos long]
      exact .refuse _
    · simp only [if_neg long, Writing.fill_eq_put]
      have pads (_ : Nat) : Confines (fun stop =>
          Writing.put stop (List.replicate (k - payload.length) slot.pad)) (fun _ => True) := .put _
      apply (Confines.put payload).seq (.put payload) pads
      intro n hn
      have whole : n = k := by
        rcases hn with hn | hn
        · exact encodeSize_of_fixed (size_eq_fixed_iff.mpr hlength) hn
        · rw [size_eq_fixed_iff, hlength] at hn
          exact (Length.fixed.inj hn).symm
      exact ⟨payload.length, n - payload.length, rfl, by omega, fun _ => trivial⟩
  | counted header =>
    have behind (_ : Nat) : Confines (fun start => Writing.put start payload) (fun _ => True) :=
      .put payload
    apply (header.write_confines payload.length).seq (header.write_measured payload.length) behind
    intro n hn
    rcases hn with hn | hn
    · rw [encodeSize, hlength] at hn
      obtain ⟨_, hpayload, hn⟩ := Outcome.bind_eq_ok.mp hn
      obtain ⟨outer, houter, hn⟩ := Outcome.bind_eq_ok.mp hn
      cases hpayload
      exact ⟨outer, payload.length, .inl houter, (checkedAdd_eq_ok_iff.mp hn).2, fun _ => trivial⟩
    · rw [size_eq_fixed_iff, hlength] at hn
      cases hn
  | remainder => exact .put payload

namespace Items

variable {length : Length} {items : List α} {room : α → Nat → Prop}

private theorem roomFor_of_foldlM {add : Nat → α → Outcome Nat} {sum total : Nat}
    (hadd : ∀ a ∈ items, ∀ sum total, add sum a = .ok total → ∃ k, room a k ∧ total = sum + k)
    (h : items.foldlM add sum = .ok total) : ∃ n, RoomFor room items n ∧ total = sum + n := by
  induction items generalizing sum with
  | nil =>
    cases h
    exact ⟨0, trivial, rfl⟩
  | cons a items ih =>
    rw [List.foldlM_cons] at h
    obtain ⟨next, hnext, h⟩ := Outcome.bind_eq_ok.mp h
    obtain ⟨k, hk, rfl⟩ := hadd a List.mem_cons_self sum next hnext
    obtain ⟨m, hm, rfl⟩ := ih (fun b hb => hadd b (List.mem_cons_of_mem a hb)) h
    exact ⟨k + m, ⟨k, m, hk, hm, rfl⟩, Nat.add_assoc _ _ _⟩

/-- The room for items is that of their count and of each of them, whether they were looked at for
it or only counted. -/
theorem write_confines {step : Nat → α → Writing Nat} {image : α → Outcome (List UInt8)}
    {item : Outcome Size} {add : Nat → α → Outcome Nat} {s : Size} (known : item = .ok s)
    (each : ∀ a ∈ items, Confines (fun offset => step offset a) (room a))
    (measured : ∀ a ∈ items, Measured (fun offset => step offset a) (image a) (room a))
    (fixed : ∀ k, s = .fixed k → ∀ a ∈ items, room a k)
    (hadd : ∀ a ∈ items, ∀ sum total, add sum a = .ok total → ∃ k, room a k ∧ total = sum + k) :
    Confines (Items.write length step items) fun n =>
      Items.encodeSize length item add items = .ok n ∨ Items.size length s = .fixed n := by
  subst known
  apply (length.write_confines items.length).seq (length.write_measured items.length)
    fun _ => .fold each measured
  intro n hn
  rcases hn with hn | hn
  · obtain ⟨count, hcount, hn⟩ := Outcome.bind_eq_ok.mp hn
    have first := Length.announces_of_countSize hcount
    cases s with
    | fixed k =>
      have hsum : (do checkedAdd count (← checkedMul k items.length)) = .ok n := hn
      obtain ⟨_, hproduct, hsum⟩ := Outcome.bind_eq_ok.mp hsum
      obtain ⟨-, rfl⟩ := checkedMul_eq_ok_iff.mp hproduct
      obtain ⟨-, rfl⟩ := checkedAdd_eq_ok_iff.mp hsum
      refine ⟨count, k * items.length, first, rfl, fun _ => ?_⟩
      rw [Nat.mul_comm]
      exact roomFor_of_each (fixed k rfl)
    | varying =>
      have hsum : items.foldlM add count = .ok n := hn
      obtain ⟨rest, hrest, sum⟩ := roomFor_of_foldlM hadd hsum
      exact ⟨count, rest, first, sum, fun _ => hrest⟩
  · obtain ⟨count, k, rfl, rfl, -, rfl⟩ := size_eq_fixed_iff.mp hn
    -- A wrong number of items is found out before any of them is written.
    refine ⟨0, count * k, rfl, (Nat.zero_add _).symm, fun ⟨bs, himage⟩ => ?_⟩
    obtain ⟨_, hmatch, -⟩ := Outcome.bind_eq_ok.mp himage
    rw [Length.matchCount_eq_ok_iff.mp hmatch]
    exact roomFor_of_each (fixed k rfl)

end Items

end ByteSchema
