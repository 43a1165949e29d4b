import ByteSchema.Reading
import Mathlib.Tactic.Common

/-!
# Taking successful steps apart

A step that answered consists of steps that answered.  Each of the three kinds of step (outcomes,
readings, writings) has one lemma for its sequencing and one for an outcome inside it; nothing
here says what any particular step does.
-/
namespace ByteSchema

variable {α β : Type}

namespace Outcome

/-- Stated for failures of any kind, since the defects of texts are a kind of their own. -/
theorem bind_eq_ok {ε : Type} {x : Except ε α} {f : α → Except ε β} {b : β} :
    x >>= f = .ok b ↔ ∃ a, x = .ok a ∧ f a = .ok b := by
  cases x with
  | error e => simp [bind, Except.bind]
  | ok a => simp [bind, Except.bind]

@[simp] theorem pure_eq_ok {ε : Type} {a b : α} : (pure a : Except ε α) = .ok b ↔ a = b := by
  simp [pure, Except.pure]

@[simp] theorem fail_ne_ok {e : Error} {a : α} : (fail e : Outcome α) ≠ .ok a := by
  simp [fail]

@[simp] theorem abort_ne_ok {f : Fault} {a : α} : (abort f : Outcome α) ≠ .ok a := by
  simp [abort]

end Outcome

namespace Reading

/-- The events of a sequence are those of its two halves, one after the other. -/
theorem bind_eq_ok {x : Reading α} {f : α → Reading β} {log : List Event} {b : β} :
    x >>= f = ⟨log, .ok b⟩ ↔
      ∃ l a m, x = ⟨l, .ok a⟩ ∧ f a = ⟨m, .ok b⟩ ∧ log = l ++ m := by
  obtain ⟨l, outcome⟩ := x
  cases outcome with
  | error e => simp
  | ok a =>
    cases h : f a with
    | mk m outcome =>
      rw [ok_bind, h]
      constructor
      · intro heq
        cases heq
        exact ⟨l, a, m, rfl, h, rfl⟩
      · rintro ⟨l', a', m', hx, hf, rfl⟩
        cases hx
        cases h.symm.trans hf
        rfl

@[simp] theorem lift_eq_ok {x : Outcome α} {log : List Event} {a : α} :
    (liftM x : Reading α) = ⟨log, .ok a⟩ ↔ x = .ok a ∧ log = [] := by
  change (⟨[], x⟩ : Reading α) = _ ↔ _
  simp only [Reading.mk.injEq, eq_comm, and_comm]

@[simp] theorem of_eq_ok {x : Outcome α} {log : List Event} {a : α} :
    of x = ⟨log, .ok a⟩ ↔ x = .ok a ∧ log = [] := lift_eq_ok

@[simp] theorem pure_eq_ok {log : List Event} {a b : α} :
    (pure a : Reading α) = ⟨log, .ok b⟩ ↔ a = b ∧ log = [] := by
  simp [pure_eq, eq_comm, and_comm]

@[simp] theorem fail_ne_ok {e : Error} {log : List Event} {a : α} :
    (fail e : Reading α) ≠ ⟨log, .ok a⟩ := by
  simp [fail, of]

theorem outcome_eq_ok {x : Reading α} {a : α} : x.outcome = .ok a ↔ ∃ log, x = ⟨log, .ok a⟩ := by
  obtain ⟨l, outcome⟩ := x
  simp

end Reading

namespace Writing

theorem run_bind_eq_ok {x : Writing α} {f : α → Writing β} {buffer after : Bytes} {b : β} :
    (x >>= f).run buffer = .ok b after ↔
      ∃ a middle, x.run buffer = .ok a middle ∧ (f a).run middle = .ok b after := by
  rw [EStateM.run_bind]
  cases x.run buffer with
  | error e s => simp
  | ok a s => simp

theorem run_lift (x : Outcome α) (buffer : Bytes) :
    (liftM x : Writing α).run buffer =
      match x with
      | .ok a => .ok a buffer
      | .error e => .error e buffer := by
  cases x <;> rfl

@[simp] theorem run_lift_eq_ok {x : Outcome α} {buffer after : Bytes} {a : α} :
    (liftM x : Writing α).run buffer = .ok a after ↔ x = .ok a ∧ after = buffer := by
  cases x with
  | error e => simp [run_lift]
  | ok b => simp [run_lift, eq_comm]

@[simp] theorem run_of_eq_ok {x : Outcome α} {buffer after : Bytes} {a : α} :
    (of x).run buffer = .ok a after ↔ x = .ok a ∧ after = buffer := run_lift_eq_ok

@[simp] theorem run_pure_eq_ok {buffer after : Bytes} {a b : α} :
    (pure a : Writing α).run buffer = .ok b after ↔ a = b ∧ after = buffer := by
  simp [EStateM.run_pure, eq_comm]

end Writing
end ByteSchema
