import ByteSchema.Failure

/-!
# Sizes and checked address arithmetic

Lengths and offsets are natural numbers below `addressSpace`.  The three checked operations agree
with the ones on `Nat` wherever they answer, and fault elsewhere.
-/
namespace ByteSchema

/-- Two to the 64: lengths and offsets are 64-bit words. -/
def addressSpace : Nat := 18446744073709551616

def checkedAdd (a b : Nat) : Outcome Nat :=
  if a + b < addressSpace then .ok (a + b) else Outcome.abort .additionOverflow

def checkedSub (a b : Nat) : Outcome Nat :=
  if b ≤ a then .ok (a - b) else Outcome.abort .subtractionOverflow

def checkedMul (a b : Nat) : Outcome Nat :=
  if a * b < addressSpace then .ok (a * b) else Outcome.abort .multiplicationOverflow

theorem checkedAdd_eq_ok_iff {a b c : Nat} :
    checkedAdd a b = .ok c ↔ a + b < addressSpace ∧ c = a + b := by
  unfold checkedAdd Outcome.abort
  split <;> rename_i h <;> simp [h, eq_comm]

theorem checkedSub_eq_ok_iff {a b c : Nat} : checkedSub a b = .ok c ↔ b ≤ a ∧ c = a - b := by
  unfold checkedSub Outcome.abort
  split <;> rename_i h <;> simp [h, eq_comm]

theorem checkedMul_eq_ok_iff {a b c : Nat} :
    checkedMul a b = .ok c ↔ a * b < addressSpace ∧ c = a * b := by
  unfold checkedMul Outcome.abort
  split <;> rename_i h <;> simp [h, eq_comm]

/-- How many bytes the values of a schema take: the same for all of them, or not known. -/
inductive Size where
  | fixed (bytes : Nat)
  | varying
  deriving DecidableEq, Repr

namespace Size

def add : Size → Size → Outcome Size
  | fixed a, fixed b => (checkedAdd a b).map fixed
  | _, _ => .ok varying

/-- A sum has a fixed size only where both parts have one. -/
theorem add_eq_fixed_iff {a b : Size} {n : Nat} :
    a.add b = .ok (fixed n) ↔
      ∃ x y, a = fixed x ∧ b = fixed y ∧ x + y < addressSpace ∧ n = x + y := by
  cases a with
  | varying => simp [add]
  | fixed x =>
    cases b with
    | varying => simp [add]
    | fixed y =>
      rw [add, checkedAdd]
      split <;> rename_i h <;> simp [Except.map, Outcome.abort, h, eq_comm]

/-- `count` items of one size; a product that is no address has no fixed size. -/
def times (count : Nat) : Size → Size
  | fixed size => if count * size < addressSpace then fixed (count * size) else varying
  | varying => varying

end Size
end ByteSchema
