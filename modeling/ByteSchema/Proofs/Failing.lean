import ByteSchema.Content
import ByteSchema.Limit
import ByteSchema.Proofs.StepInversion

/-!
# What may go wrong

A step that fails does so with a failure of some kind.  Whatever steps are put together fails with
the kinds of its parts; this is shown here for every way to put outcomes, readings and writings
together, and once for all kinds.  Which kind there is to a step is said where the step is looked
at.
-/
namespace ByteSchema

variable {α β : Type} {P Q : Failure → Prop}

/-- Whatever the outcome fails with is of the kind `P`. -/
def Outcome.FailsOnly (P : Failure → Prop) (x : Outcome α) : Prop := ∀ e, x = .error e → P e

def Reading.FailsOnly (P : Failure → Prop) (x : Reading α) : Prop := x.outcome.FailsOnly P

/-- Whatever the step fails with is of the kind `P`, in any buffer. -/
def Writing.FailsOnly (P : Failure → Prop) (x : Writing α) : Prop :=
  ∀ buffer e after, x.run buffer = .error e after → P e

namespace Outcome.FailsOnly

theorem ok (a : α) : FailsOnly P (.ok a : Outcome α) := fun _ h => by cases h

theorem error {e : Failure} (h : P e) : FailsOnly P (.error e : Outcome α) := by
  rintro _ ⟨⟩
  exact h

theorem fail {e : Error} (h : P (.error e)) : FailsOnly P (Outcome.fail e : Outcome α) := error h

theorem abort {f : Fault} (h : P (.fault f)) : FailsOnly P (Outcome.abort f : Outcome α) := error h

theorem mono {x : Outcome α} (h : FailsOnly P x) (wider : ∀ e, P e → Q e) : FailsOnly Q x :=
  fun e he => wider e (h e he)

theorem bind {x : Outcome α} {f : α → Outcome β} (hx : FailsOnly P x)
    (hf : ∀ a, x = .ok a → FailsOnly P (f a)) : FailsOnly P (x >>= f) := by
  cases x with
  | ok a => exact hf a rfl
  | error e => exact error (hx e rfl)

theorem ite {c : Prop} [Decidable c] {x y : Outcome α} (hx : FailsOnly P x)
    (hy : FailsOnly P y) : FailsOnly P (if c then x else y) := by
  by_cases h : c
  · rwa [if_pos h]
  · rwa [if_neg h]

theorem checkedAdd {a b : Nat} (h : P (.fault .additionOverflow)) :
    FailsOnly P (ByteSchema.checkedAdd a b) :=
  ite (ok _) (abort h)

theorem checkedAdd_of_lt {a b : Nat} (small : a + b < addressSpace) :
    FailsOnly P (ByteSchema.checkedAdd a b) := by
  rw [checkedAdd_eq_ok_iff.mpr ⟨small, rfl⟩]
  exact ok _

theorem checkedSub {a b : Nat} (h : P (.fault .subtractionOverflow)) :
    FailsOnly P (ByteSchema.checkedSub a b) :=
  ite (ok _) (abort h)

theorem checkedMul {a b : Nat} (h : P (.fault .multiplicationOverflow)) :
    FailsOnly P (ByteSchema.checkedMul a b) :=
  ite (ok _) (abort h)

theorem add {a b : Size} (h : P (.fault .additionOverflow)) : FailsOnly P (a.add b) := by
  cases a with
  | varying => exact ok _
  | fixed x =>
    cases b with
    | varying => exact ok _
    | fixed y => exact bind (checkedAdd h) fun n _ => ok (Size.fixed n)

theorem foldlM {add : β → α → Outcome β} {items : List α}
    (each : ∀ a ∈ items, ∀ sum, FailsOnly P (add sum a)) (sum : β) :
    FailsOnly P (items.foldlM add sum) := by
  induction items generalizing sum with
  | nil => exact ok sum
  | cons a items ih =>
    exact bind (each a List.mem_cons_self sum) fun next _ =>
      ih (fun b hb => each b (List.mem_cons_of_mem a hb)) next

end Outcome.FailsOnly

namespace Reading.FailsOnly

theorem lift {x : Outcome α} (h : x.FailsOnly P) : FailsOnly P (liftM x : Reading α) := h

theorem pure (a : α) : FailsOnly P (Pure.pure a : Reading α) := Outcome.FailsOnly.ok a

theorem fail {e : Error} (h : P (.error e)) : FailsOnly P (Reading.fail e : Reading α) :=
  Outcome.FailsOnly.fail h

theorem bind {x : Reading α} {f : α → Reading β} (hx : FailsOnly P x)
    (hf : ∀ log a, x = ⟨log, .ok a⟩ → FailsOnly P (f a)) : FailsOnly P (x >>= f) := by
  obtain ⟨log, outcome⟩ := x
  cases outcome with
  | ok a => exact hf log a rfl
  | error e => exact Outcome.FailsOnly.error (hx e rfl)

/-- A step behind an outcome. -/
theorem lift_bind {x : Outcome α} {f : α → Reading β} (hx : x.FailsOnly P)
    (hf : ∀ a, x = .ok a → FailsOnly P (f a)) : FailsOnly P ((liftM x : Reading α) >>= f) :=
  bind (lift hx) fun _ a h => hf a (lift_eq_ok.mp h).1

theorem ite {c : Prop} [Decidable c] {x y : Reading α} (hx : FailsOnly P x)
    (hy : FailsOnly P y) : FailsOnly P (if c then x else y) := by
  by_cases h : c
  · rwa [if_pos h]
  · rwa [if_neg h]

/-- Items are read from offsets of some kind, which none of them leaves. -/
theorem times {item : Nat → Reading (α × Nat)} {Here : Nat → Prop}
    (each : ∀ a, Here a → FailsOnly P (item a))
    (stays : ∀ {l x a b}, Here a → item a = ⟨l, .ok (x, b)⟩ → Here b) {offset : Nat}
    (here : Here offset) (n : Nat) : FailsOnly P (times item n offset) := by
  induction n generalizing offset with
  | zero => exact pure _
  | succ n ih =>
    rw [times_succ]
    exact bind (each offset here) fun _ _ hitem =>
      bind (ih (stays here hitem)) fun _ _ _ => pure _

end Reading.FailsOnly

namespace Writing.FailsOnly

theorem of_outcome {x : Outcome α} (h : x.FailsOnly P) : FailsOnly P (Writing.of x) := by
  intro buffer e after hrun
  cases x with
  | ok a => cases hrun
  | error e =>
    cases hrun
    exact h e rfl

theorem pure (a : α) : FailsOnly P (Pure.pure a : Writing α) := of_outcome (.ok a)

theorem bind {x : Writing α} {f : α → Writing β} (hx : FailsOnly P x)
    (hf : ∀ a buffer after, x.run buffer = .ok a after → FailsOnly P (f a)) :
    FailsOnly P (x >>= f) := by
  intro buffer e after h
  rw [EStateM.run_bind] at h
  cases hrun : x.run buffer with
  | error e' middle =>
    rw [hrun] at h
    cases h
    exact hx buffer e after hrun
  | ok a middle =>
    rw [hrun] at h
    exact hf a buffer middle hrun middle e after h

/-- A step behind an outcome. -/
theorem lift_bind {x : Outcome α} {f : α → Writing β} (hx : x.FailsOnly P)
    (hf : ∀ a, x = .ok a → FailsOnly P (f a)) : FailsOnly P ((liftM x : Writing α) >>= f) :=
  bind (of_outcome hx) fun a _ _ hrun => hf a (run_lift_eq_ok.mp hrun).1

theorem put {offset : Nat} {bs : List UInt8} (h : P (.fault .additionOverflow)) :
    FailsOnly P (Writing.put offset bs) := by
  refine bind (lift_bind (.checkedAdd h) fun _ _ => ?_) fun _ _ _ _ => ?_
  · exact bind (fun _ _ _ h => by cases h) fun _ _ _ _ => pure _
  · exact bind (fun _ _ _ h => by cases h) fun _ _ _ _ => pure _

theorem foldlM {step : β → α → Writing β} {items : List α}
    (each : ∀ a ∈ items, ∀ b, FailsOnly P (step b a)) (b : β) :
    FailsOnly P (items.foldlM step b) := by
  induction items generalizing b with
  | nil => exact pure b
  | cons a items ih =>
    exact bind (each a List.mem_cons_self b) fun next _ _ _ =>
      ih (fun c hc => each c (List.mem_cons_of_mem a hc)) next

end Writing.FailsOnly

/-- A fault, or an error of the kind `P`. -/
def Failure.Raised (P : Error → Prop) : Failure → Prop
  | .error e => P e
  | .fault _ => True

/-- All errors of the outcome are of the kind `P`; of faults nothing is said. -/
def Outcome.Raises (P : Error → Prop) (x : Outcome α) : Prop := x.FailsOnly (Failure.Raised P)

theorem Outcome.Raises.mono {P Q : Error → Prop} {x : Outcome α} (h : x.Raises P)
    (wider : ∀ e, P e → Q e) : x.Raises Q :=
  FailsOnly.mono h fun failure => by
    cases failure with
    | error e => exact wider e
    | fault f => exact id

/-! A text is refused with the defect of its encoding. -/

theorem Encoding.refuse_failsOnly (e : Encoding) (x : Except TextDefect α) :
    (e.refuse x).FailsOnly fun failure => ∃ defect, failure = .error (.invalidText e defect) := by
  cases x with
  | ok a => exact .ok a
  | error defect => exact .fail ⟨defect, rfl⟩

theorem Content.ofBytes_failsOnly (content : Content) (bs : List UInt8) :
    (content.ofBytes bs).FailsOnly fun failure =>
      ∃ e defect, failure = .error (.invalidText e defect) := by
  cases content with
  | raw => exact .ok _
  | text e =>
    refine .bind ?_ fun _ _ => .ok _
    cases e with
    | utf8 =>
      exact (Encoding.utf8.refuse_failsOnly (Utf8.toText bs)).mono fun _ defect => ⟨_, defect⟩
    | base16 => exact .ok _
    | base58 => exact .ok _
    | base64 => exact .ok _

/-! Steps that do fail. -/

/-- The outcome is a failure, and one of the kind `P`. -/
def Outcome.Fails (P : Failure → Prop) (x : Outcome α) : Prop := ∃ e, x = .error e ∧ P e

def Reading.Fails (P : Failure → Prop) (x : Reading α) : Prop := x.outcome.Fails P

theorem Outcome.Fails.bind {x : Outcome α} {f : α → Outcome β} (h : x.Fails P) :
    (x >>= f).Fails P := by
  obtain ⟨e, rfl, kind⟩ := h
  exact ⟨e, rfl, kind⟩

namespace Reading.Fails

variable {x : Reading α} {f : α → Reading β}

theorem mono (h : x.Fails P) (wider : ∀ e, P e → Q e) : x.Fails Q := by
  obtain ⟨e, failed, kind⟩ := h
  exact ⟨e, failed, wider e kind⟩

theorem bind (h : x.Fails P) : (x >>= f).Fails P := by
  obtain ⟨log, outcome⟩ := x
  obtain ⟨e, rfl, kind⟩ := h
  exact ⟨e, rfl, kind⟩

theorem lift_bind {o : Outcome α} (h : o.Fails P) : ((liftM o : Reading α) >>= f).Fails P :=
  bind h

theorem after {log : List Event} {a : α} (hx : x = ⟨log, .ok a⟩) (h : (f a).Fails P) :
    (x >>= f).Fails P := by
  subst hx
  exact h

/-- A number that a limit lets pass takes nothing from the input. -/
theorem after_check {limit : Limit} {n : Nat} {g : Unit → Reading β}
    (within : limit.contains n = true) (h : (g ()).Fails P) :
    ((liftM (limit.check n) : Reading Unit) >>= g).Fails P :=
  after (lift_eq_ok.mpr ⟨Limit.check_eq_ok_iff.mpr within, rfl⟩) h

end Reading.Fails
end ByteSchema
