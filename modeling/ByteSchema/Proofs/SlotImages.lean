import ByteSchema.Slot
import ByteSchema.Proofs.HeaderImages
import Mathlib.Data.List.TakeWhile

/-!
# The bytes of slots

A slot of fixed length is filled by its image, however short the content.  What is read from a slot
has the bytes of the slot as its image again: padding that was taken off is put back.  The other
direction needs content that the padding cannot be mistaken for.
-/
namespace ByteSchema

open Bytes

namespace Length

/-- The bytes of a count. -/
def image (length : Length) (count : Nat) : Outcome (List UInt8) :=
  match length with
  | fixed n => do
    matchCount n count
    return []
  | counted header => header.image count
  | remainder => .ok []

/-- The limits at a count and inside its header let the count pass. -/
def Admits (length : Length) (limit : Limit) (count : Nat) : Prop :=
  match length with
  | counted header => limit.contains count = true ∧ header.Admits count
  | _ => True

variable {length : Length} {count : Nat}

theorem matchCount_eq_ok_iff {expected found : Nat} {u : Unit} :
    matchCount expected found = .ok u ↔ expected = found := by
  unfold matchCount Outcome.fail
  split <;> simp_all

theorem writeCount_renders (length : Length) (count : Nat) :
    Renders (length.writeCount count) (length.image count) := by
  cases length with
  | fixed n => exact .lift fun _ _ => .skip
  | counted header => exact header.write_renders count
  | remainder => exact .skip

theorem countSize_of_image {bs : List UInt8} (h : length.image count = .ok bs)
    (small : bs.length < addressSpace) : length.countSize count = .ok bs.length := by
  cases length with
  | fixed n =>
    obtain ⟨_, hmatch, h⟩ := Outcome.bind_eq_ok.mp h
    cases h
    exact Outcome.bind_eq_ok.mpr ⟨_, hmatch, rfl⟩
  | counted header => exact Header.encodeSize_of_image h small
  | remainder =>
    cases h
    rfl

end Length

namespace Slot

/-- The bytes of a slot that holds the payload. -/
def image (slot : Slot) (payload : List UInt8) : Outcome (List UInt8) :=
  match slot.length with
  | .fixed n =>
    if n < payload.length then Outcome.fail (.lengthExceeded payload.length n)
    else .ok (payload ++ List.replicate (n - payload.length) slot.pad)
  | .counted header => do return (← header.image payload.length) ++ (← .ok payload)
  | .remainder => .ok payload

/-- The payload comes back as it is: padding, where it is taken off, cannot be mistaken for its
end, and where it is kept there is none; a length from a header passes the limits. -/
def Admits (slot : Slot) (payload : List UInt8) : Prop :=
  match slot.length with
  | .fixed n => if slot.strip then payload.getLast? ≠ some slot.pad else payload.length = n
  | .counted _ => slot.length.Admits slot.limit payload.length
  | .remainder => True

variable {slot : Slot} {payload bs : List UInt8} {n m : Nat}

theorem write_renders (slot : Slot) (payload : List UInt8) :
    Renders (slot.write payload) (slot.image payload) := by
  unfold Slot.write image
  cases slot.length with
  | fixed n =>
    by_cases h : n < payload.length
    · simp only [if_pos h]
      exact .refuse _
    · simp only [if_neg h, Writing.fill_eq_put]
      exact (Renders.put payload).seq (.put _)
  | counted header => exact (header.write_renders payload.length).seq (.put payload)
  | remainder => exact .put payload

theorem encodeSize_of_image (h : slot.image payload = .ok bs) (small : bs.length < addressSpace) :
    slot.encodeSize (.ok payload) = .ok bs.length := by
  unfold image at h
  unfold encodeSize
  cases hlength : slot.length with
  | fixed n =>
    rw [hlength] at h
    by_cases long : n < payload.length
    · simp [long] at h
    · simp only [if_neg long, Except.ok.injEq] at h
      subst h
      rw [List.length_append, List.length_replicate]
      exact congrArg Except.ok (by omega)
  | counted header =>
    rw [hlength] at h
    obtain ⟨outer, inner, houter, hinner, rfl⟩ := append_eq_ok_iff.mp h
    cases hinner
    rw [List.length_append] at small ⊢
    have size := Header.encodeSize_of_image houter (by omega)
    exact Outcome.bind_eq_ok.mpr ⟨_, rfl, Outcome.bind_eq_ok.mpr ⟨_, size,
      checkedAdd_eq_ok_iff.mpr ⟨small, rfl⟩⟩⟩
  | remainder =>
    rw [hlength] at h
    cases h
    rfl

theorem size_eq_fixed_iff : slot.size = .fixed n ↔ slot.length = .fixed n := by
  unfold size
  cases slot.length with
  | fixed k => simp
  | counted header => simp
  | remainder => simp

theorem length_image_of_fixed (size : slot.size = .fixed n) (h : slot.image payload = .ok bs) :
    bs.length = n := by
  rw [image, size_eq_fixed_iff.mp size] at h
  by_cases long : n < payload.length
  · simp [long] at h
  · simp only [if_neg long, Except.ok.injEq] at h
    subst h
    rw [List.length_append, List.length_replicate]
    omega

theorem encodeSize_of_fixed {content : Outcome (List UInt8)} (size : slot.size = .fixed n)
    (h : slot.encodeSize content = .ok m) : m = n := by
  rw [encodeSize, size_eq_fixed_iff.mp size] at h
  exact (Except.ok.inj h).symm

/-- Padding is taken off with the content bytes that look like it. -/
theorem trim_append_replicate (pad : UInt8) (bs : List UInt8) (k : Nat) :
    trim pad (bs ++ List.replicate k pad) = trim pad bs := by
  simp [trim]

/-- Bytes that do not end in the pad byte stay as they are. -/
theorem trim_eq_self {pad : UInt8} {bs : List UInt8} (h : bs.getLast? ≠ some pad) :
    trim pad bs = bs := by
  rw [← List.head?_reverse] at h
  rw [trim, List.reverse_eq_iff]
  cases front : bs.reverse with
  | nil => rfl
  | cons b rest =>
    have other : b ≠ pad := fun same => h (by rw [front, same, List.head?_cons])
    simp [other]

/-- Filling up with pad bytes again gives back what was trimmed. -/
theorem trim_append_pads (pad : UInt8) (bs : List UInt8) :
    trim pad bs ++ List.replicate (bs.length - (trim pad bs).length) pad = bs := by
  let front := bs.reverse.takeWhile (· == pad)
  have pads : front = List.replicate front.length pad :=
    List.eq_replicate_of_mem fun b hb => by simpa using List.mem_takeWhile_imp hb
  have cut : trim pad bs ++ front.reverse = bs := by
    rw [trim, ← List.reverse_append, List.takeWhile_append_dropWhile, List.reverse_reverse]
  have length := congrArg List.length cut
  rw [List.length_append, List.length_reverse] at length
  have rest : bs.length - (trim pad bs).length = front.length := by omega
  rw [rest, ← List.reverse_replicate, ← pads, cut]

theorem getLast_trim_ne (pad : UInt8) (bs : List UInt8) :
    (trim pad bs).getLast? ≠ some pad := by
  intro h
  rw [trim, List.getLast?_reverse] at h
  have front := List.head?_dropWhile_not (· == pad) bs.reverse
  simp [h] at front

/-- What is taken off starts with a pad byte. -/
theorem eq_trim_append_cons {pad : UInt8} {bs : List UInt8} (h : bs.getLast? = some pad) :
    ∃ rest, bs = trim pad bs ++ pad :: rest := by
  have filled := trim_append_pads pad bs
  cases count : bs.length - (trim pad bs).length with
  | zero =>
    rw [count, List.replicate_zero, List.append_nil] at filled
    exact absurd (filled.symm ▸ h) (getLast_trim_ne pad bs)
  | succ k =>
    rw [count, List.replicate_succ] at filled
    exact ⟨_, filled.symm⟩

section Reads

variable {bytes : Bytes} {offset stop : Nat} {log : List Event}

/-- What was cut out of the input is followed by an address. -/
private theorem window_then_stop_eq_ok_iff {start len : Nat} {f : Bytes → List UInt8}
    {extent : Bytes → Nat}
    (same : ∀ found, bytes.window start len = .ok found → extent found = len) :
    (do let found ← bytes.window start len
        let stop ← checkedAdd start (extent found)
        return (f found, stop) : Reading (List UInt8 × Nat)) = ⟨log, .ok (payload, stop)⟩ ↔
      log = [] ∧ ∃ found, bytes.window start len = .ok found ∧ payload = f found ∧
        stop = start + len := by
  simp only [Reading.bind_eq_ok, Reading.lift_eq_ok, Reading.pure_eq_ok, Prod.mk.injEq]
  constructor
  · rintro ⟨_, found, _, ⟨hwindow, rfl⟩, ⟨_, _, _, ⟨hsum, rfl⟩, ⟨⟨rfl, rfl⟩, rfl⟩, rfl⟩, rfl⟩
    obtain ⟨-, rfl⟩ := checkedAdd_eq_ok_iff.mp hsum
    exact ⟨rfl, found, hwindow, rfl, by rw [same found hwindow]⟩
  · rintro ⟨rfl, found, hwindow, rfl, rfl⟩
    have sum : checkedAdd start (extent found) = .ok (start + len) := by
      rw [same found hwindow]
      exact checkedAdd_eq_ok_iff.mpr ⟨(window_eq_ok_iff.mp hwindow).2.1, rfl⟩
    exact ⟨[], found, [], ⟨hwindow, rfl⟩, ⟨[], _, [], ⟨sum, rfl⟩, ⟨⟨rfl, rfl⟩, rfl⟩, rfl⟩, rfl⟩

theorem read_fixed_eq_ok_iff (hlength : slot.length = .fixed n) :
    slot.read bytes offset = ⟨log, .ok (payload, stop)⟩ ↔
      log = [] ∧ ∃ found, bytes.window offset n = .ok found ∧
        payload = (if slot.strip then trim slot.pad found.toList else found.toList) ∧
        stop = offset + n := by
  rw [read, hlength]
  exact window_then_stop_eq_ok_iff fun _ _ => rfl

theorem read_counted_eq_ok_iff {header : Header} (hlength : slot.length = .counted header) :
    slot.read bytes offset = ⟨log, .ok (payload, stop)⟩ ↔
      log = [] ∧ ∃ len middle found, header.readCount bytes offset = ⟨[], .ok (len, middle)⟩ ∧
        slot.limit.contains len = true ∧ bytes.window middle len = .ok found ∧
        payload = found.toList ∧ stop = middle + len := by
  rw [read, hlength]
  constructor
  · intro h
    obtain ⟨_, ⟨len, middle⟩, _, hheader, hrest, rfl⟩ := Reading.bind_eq_ok.mp h
    obtain ⟨_, _, _, hlimit, hpayload, rfl⟩ := Reading.bind_eq_ok.mp hrest
    obtain ⟨within, rfl⟩ := Reading.lift_eq_ok.mp hlimit
    obtain ⟨rfl, found, hwindow, rfl, rfl⟩ :=
      (window_then_stop_eq_ok_iff fun _ _ => rfl).mp hpayload
    obtain ⟨rfl, -⟩ := header.readCount_counts.mp hheader
    exact ⟨rfl, len, middle, found, hheader, Limit.check_eq_ok_iff.mp within, hwindow, rfl, rfl⟩
  · rintro ⟨rfl, len, middle, found, hheader, within, hwindow, rfl, rfl⟩
    have checked : slot.limit.check len = .ok () := Limit.check_eq_ok_iff.mpr within
    refine Reading.bind_eq_ok.mpr ⟨[], _, [], hheader, ?_, rfl⟩
    refine Reading.bind_eq_ok.mpr ⟨[], (), [], Reading.lift_eq_ok.mpr ⟨checked, rfl⟩, ?_, rfl⟩
    exact (window_then_stop_eq_ok_iff fun _ _ => rfl).mpr ⟨rfl, found, hwindow, rfl, rfl⟩

theorem read_remainder_eq_ok_iff (hlength : slot.length = .remainder) :
    slot.read bytes offset = ⟨log, .ok (payload, stop)⟩ ↔
      log = [] ∧ ∃ found, bytes.rest offset = .ok found ∧ payload = found.toList ∧
        stop = offset + (bytes.size - offset) := by
  rw [read, hlength]
  exact window_then_stop_eq_ok_iff fun _ h => (window_spans h).2.2

end Reads

/-- What was read from a slot fills the slot again with the bytes that it was read from. -/
theorem image_of_read {bytes : Bytes} {offset stop : Nat} {log : List Event}
    (h : slot.read bytes offset = ⟨log, .ok (payload, stop)⟩) :
    log = [] ∧ ∃ bs, slot.image payload = .ok bs ∧ Spans bytes offset bs stop := by
  unfold image
  cases hlength : slot.length with
  | fixed n =>
    obtain ⟨rfl, found, hwindow, rfl, rfl⟩ := (read_fixed_eq_ok_iff hlength).mp h
    obtain ⟨spans, -, size⟩ := window_spans hwindow
    rw [← Array.length_toList] at size
    refine ⟨rfl, found.toList, ?_, spans⟩
    have filled := trim_append_pads slot.pad found.toList
    have shorter := congrArg List.length filled
    rw [size] at filled
    rw [List.length_append, List.length_replicate] at shorter
    by_cases strip : slot.strip = true
    · simp only [strip, if_true]
      rw [if_neg (by omega), filled]
    · simp only [strip, if_false, Bool.false_eq_true]
      rw [if_neg (by omega), size, Nat.sub_self, List.replicate_zero, List.append_nil]
  | counted header =>
    obtain ⟨rfl, len, middle, found, hheader, -, hwindow, rfl, rfl⟩ :=
      (read_counted_eq_ok_iff hlength).mp h
    obtain ⟨-, -, -, outer, houter, spans, -⟩ := header.readCount_counts.mp hheader
    obtain ⟨spans', -, size⟩ := window_spans hwindow
    rw [← Array.length_toList] at size
    refine ⟨rfl, outer ++ found.toList, ?_, spans.append spans'⟩
    exact append_eq_ok_iff.mpr ⟨outer, _, size ▸ houter, rfl, rfl⟩
  | remainder =>
    obtain ⟨rfl, found, hwindow, rfl, rfl⟩ := (read_remainder_eq_ok_iff hlength).mp h
    exact ⟨rfl, _, rfl, (window_spans hwindow).1⟩

/-- What was read from a slot is admitted by it. -/
theorem admits_of_read {bytes : Bytes} {offset stop : Nat} {log : List Event}
    (h : slot.read bytes offset = ⟨log, .ok (payload, stop)⟩) : slot.Admits payload := by
  unfold Admits
  cases hlength : slot.length with
  | fixed n =>
    obtain ⟨-, found, hwindow, rfl, -⟩ := (read_fixed_eq_ok_iff hlength).mp h
    by_cases strip : slot.strip = true
    · simp only [strip, if_true]
      exact getLast_trim_ne slot.pad found.toList
    · simp only [strip, if_false, Bool.false_eq_true]
      exact (window_spans hwindow).2.2
  | counted header =>
    obtain ⟨-, len, middle, found, hheader, within, hwindow, rfl, -⟩ :=
      (read_counted_eq_ok_iff hlength).mp h
    obtain ⟨-, -, admits, -⟩ := header.readCount_counts.mp hheader
    have size : found.toList.length = len := (window_spans hwindow).2.2
    rw [size]
    exact ⟨within, admits⟩
  | remainder => trivial

/-- A payload that the slot admits is read back from its image; without a length of its own the
image has to be the end of the input. -/
theorem read_of_image {bytes : Bytes} {offset stop : Nat} (h : slot.image payload = .ok bs)
    (admits : slot.Admits payload) (spans : Spans bytes offset bs stop)
    (small : stop < addressSpace)
    (last : slot.length = .remainder → stop = bytes.size) :
    slot.read bytes offset = ⟨[], .ok (payload, stop)⟩ := by
  have total := spans.stop_eq
  have window := spans.window small
  unfold image at h
  unfold Admits at admits
  cases hlength : slot.length with
  | fixed n =>
    simp only [hlength] at h admits
    by_cases long : n < payload.length
    · simp [long] at h
    · simp only [if_neg long, Except.ok.injEq] at h
      have length := congrArg List.length h
      rw [List.length_append, List.length_replicate] at length
      have size : bs.length = n := by omega
      rw [size] at window total
      refine (read_fixed_eq_ok_iff hlength).mpr ⟨rfl, _, window, ?_, total⟩
      by_cases strip : slot.strip = true
      · simp only [strip, if_true] at admits ⊢
        rw [← h, trim_append_replicate, trim_eq_self admits]
      · simp only [strip, if_false, Bool.false_eq_true] at admits ⊢
        rw [← h, admits, Nat.sub_self, List.replicate_zero, List.append_nil]
  | counted header =>
    simp only [hlength, Length.Admits] at h admits
    obtain ⟨outer, inner, houter, hinner, rfl⟩ := append_eq_ok_iff.mp h
    cases hinner
    obtain ⟨middle, first, second⟩ := spans.of_append
    have hheader := header.readCount_counts.mpr ⟨rfl, second.length_lt, admits.2, outer, houter,
      first, Nat.lt_of_le_of_lt second.le small⟩
    exact (read_counted_eq_ok_iff hlength).mpr ⟨rfl, payload.length, middle, _, hheader, admits.1,
      second.window small, rfl, second.stop_eq⟩
  | remainder =>
    simp only [hlength, Except.ok.injEq] at h
    subst h
    have whole := last hlength
    have length : bytes.size - offset = payload.length := by omega
    rw [← length] at window total
    exact (read_remainder_eq_ok_iff hlength).mpr ⟨rfl, _, window, rfl, total⟩

end Slot
end ByteSchema
