import ByteSchema.Failure

/-!
# Limits on decoded lengths

A limit is an interval of lengths with either end included, excluded or absent.  An interval whose
ends are reversed is empty.
-/
namespace ByteSchema

inductive Bound where
  | included (n : Nat)
  | excluded (n : Nat)
  | unbounded
  deriving DecidableEq, Repr

namespace Bound

/-- Whether `n` lies on the right side of a lower end. -/
def isBelow : Bound → Nat → Bool
  | included a, n => a ≤ n
  | excluded a, n => a < n
  | unbounded, _ => true

/-- Whether `n` lies on the right side of an upper end. -/
def isAbove : Bound → Nat → Bool
  | included b, n => n ≤ b
  | excluded b, n => n < b
  | unbounded, _ => true

end Bound

structure Limit where
  lower : Bound
  upper : Bound
  deriving DecidableEq, Repr

namespace Limit

def all : Limit := ⟨.unbounded, .unbounded⟩

def exact (n : Nat) : Limit := ⟨.included n, .included n⟩

def contains (l : Limit) (n : Nat) : Bool := l.lower.isBelow n && l.upper.isAbove n

def check (l : Limit) (n : Nat) : Outcome Unit :=
  if l.contains n then .ok () else Outcome.fail (.invalidLength n)

@[simp] theorem contains_all (n : Nat) : all.contains n = true := rfl

theorem check_eq_ok_iff {l : Limit} {n : Nat} {u : Unit} :
    l.check n = .ok u ↔ l.contains n = true := by
  unfold check Outcome.fail
  split <;> simp_all

end Limit
end ByteSchema
