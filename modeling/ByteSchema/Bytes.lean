import ByteSchema.Size

/-!
# Byte strings: windows to read and a buffer to write

`window` is the only way the readers look at their input, and `put` the only way the writers touch
the buffer.  A buffer grows with zeros and never shrinks.
-/
namespace ByteSchema

abbrev Bytes := Array UInt8

namespace Bytes

/-- The bytes `[offset, offset + len)`; asking for bytes that are not there is a fault. -/
def slice (bytes : Bytes) (offset len : Nat) : Outcome Bytes := do
  let stop ← checkedAdd offset len
  if stop ≤ bytes.size then .ok (bytes.extract offset stop) else Outcome.abort .sliceOutOfRange

/-- The bytes `[offset, offset + len)` of the input.  An offset past the end is refused even when
no byte is asked for. -/
def window (bytes : Bytes) (offset len : Nat) : Outcome Bytes :=
  if bytes.size - offset < len ∨ bytes.size < offset then
    Outcome.fail (.endOfInput len offset (bytes.size - offset))
  else
    bytes.slice offset len

/-- Everything from `offset` on. -/
def rest (bytes : Bytes) (offset : Nat) : Outcome Bytes :=
  bytes.window offset (bytes.size - offset)

def growTo (buffer : Bytes) (len : Nat) : Bytes :=
  if buffer.size < len then buffer ++ Array.replicate (len - buffer.size) 0 else buffer

def overwrite (buffer : Bytes) (offset : Nat) : List UInt8 → Bytes
  | [] => buffer
  | b :: bs => overwrite (buffer.setIfInBounds offset b) (offset + 1) bs

@[simp] theorem size_growTo (buffer : Bytes) (len : Nat) :
    (buffer.growTo len).size = max buffer.size len := by
  unfold growTo
  split
  · simp only [Array.size_append, Array.size_replicate]
    omega
  · omega

@[simp] theorem size_overwrite (buffer : Bytes) (offset : Nat) (bs : List UInt8) :
    (buffer.overwrite offset bs).size = buffer.size := by
  induction bs generalizing buffer offset with
  | nil => rfl
  | cons b bs ih => simp [overwrite, ih]

theorem getElem?_growTo (buffer : Bytes) (len i : Nat) :
    (buffer.growTo len)[i]? =
      if i < buffer.size then buffer[i]? else if i < len then some 0 else none := by
  unfold growTo
  by_cases h : buffer.size < len
  · rw [if_pos h, Array.getElem?_append, Array.getElem?_replicate]
    by_cases hi : i < buffer.size
    · rw [if_pos hi, if_pos hi]
    · rw [if_neg hi, if_neg hi]
      by_cases hlen : i < len
      · rw [if_pos (show i - buffer.size < len - buffer.size by omega), if_pos hlen]
      · rw [if_neg (show ¬ i - buffer.size < len - buffer.size by omega), if_neg hlen]
  · rw [if_neg h]
    by_cases hi : i < buffer.size
    · rw [if_pos hi]
    · rw [if_neg hi, if_neg (show ¬ i < len by omega), Array.getElem?_eq_none (by omega)]

/-- Inside the buffer, `overwrite` replaces the bytes from `offset` on and no others. -/
theorem getElem?_overwrite (buffer : Bytes) (offset : Nat) (bs : List UInt8) (i : Nat)
    (hi : i < buffer.size) :
    (buffer.overwrite offset bs)[i]? =
      if offset ≤ i ∧ i < offset + bs.length then bs[i - offset]? else buffer[i]? := by
  induction bs generalizing buffer offset with
  | nil =>
    have h : ¬ (offset ≤ i ∧ i < offset + ([] : List UInt8).length) := by
      rw [List.length_nil]
      omega
    rw [if_neg h]
    rfl
  | cons b bs ih =>
    rw [overwrite, ih _ _ (by simpa using hi), Array.getElem?_setIfInBounds, List.length_cons]
    by_cases h : offset = i
    · subst h
      have later : ¬ (offset + 1 ≤ offset ∧ offset < offset + 1 + bs.length) := by omega
      have here : offset ≤ offset ∧ offset < offset + (bs.length + 1) := by omega
      rw [if_neg later, if_pos here, if_pos rfl, if_pos hi, Nat.sub_self]
      rfl
    · rw [if_neg h]
      by_cases inside : offset + 1 ≤ i ∧ i < offset + 1 + bs.length
      · have there : offset ≤ i ∧ i < offset + (bs.length + 1) := by omega
        obtain ⟨k, rfl⟩ : ∃ k, i = offset + 1 + k := ⟨i - (offset + 1), by omega⟩
        rw [if_pos inside, if_pos there, Nat.add_sub_cancel_left, Nat.add_assoc,
          Nat.add_sub_cancel_left, Nat.add_comm 1 k]
        rfl
      · have there : ¬ (offset ≤ i ∧ i < offset + (bs.length + 1)) := by omega
        rw [if_neg inside, if_neg there]

end Bytes

/-- A step that writes into a growing buffer.  What was written stays when a later part fails. -/
abbrev Writing := EStateM Failure Bytes

namespace Writing

def of {α : Type} : Outcome α → Writing α
  | .ok a => pure a
  | .error e => throw e

instance : MonadLift Outcome Writing := ⟨of⟩

/-- Makes room for `len` bytes at `offset` and answers where they end. -/
def reserve (offset len : Nat) : Writing Nat := do
  let stop ← checkedAdd offset len
  modify (·.growTo stop)
  return stop

/-- Writes the bytes at `offset` and answers where they end. -/
def put (offset : Nat) (bs : List UInt8) : Writing Nat := do
  let stop ← reserve offset bs.length
  modify (·.overwrite offset bs)
  return stop

/-- Writes `byte` on `len` places.  A run that does not fit into memory is refused before it is
built. -/
def fill (offset len : Nat) (byte : UInt8) : Writing Nat := do
  let stop ← reserve offset len
  modify (·.overwrite offset (List.replicate len byte))
  return stop

theorem fill_eq_put (offset len : Nat) (byte : UInt8) :
    fill offset len byte = put offset (List.replicate len byte) := by
  unfold fill put
  rw [List.length_replicate]

end Writing
end ByteSchema
