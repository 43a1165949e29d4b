import ByteSchema.Bytes

/-!
# Reading with diagnostics

A reading step has an outcome and the events it reported on the way.  Events of a failed step are
kept.  The two loops over items keep their results in accumulators, so that long inputs need no
deep stack; `times_succ` is the recursion they stand for.
-/
namespace ByteSchema

inductive Event where
  /-- A named field that starts at `offset` could not be read. -/
  | fieldFailed (name : String) (offset : Nat) (cause : Error)
  /-- A tag that no variant declares was read up to `offset`. -/
  | tagUnknown (tag offset : Nat)
  /-- The payload of the frame at `offset` took another length than announced. -/
  | frameMismatch (offset expected consumed : Nat)
  /-- The pair at `index` has the key of an earlier pair. -/
  | keyOverwritten (index : Nat)
  deriving DecidableEq, Repr

structure Reading (α : Type) where
  events : List Event
  outcome : Outcome α

namespace Reading

variable {α β : Type}

def of (x : Outcome α) : Reading α := ⟨[], x⟩

def bind (x : Reading α) (f : α → Reading β) : Reading β :=
  match x with
  | ⟨log, .ok a⟩ => ⟨log ++ (f a).events, (f a).outcome⟩
  | ⟨log, .error e⟩ => ⟨log, .error e⟩

instance : Monad Reading where
  pure a := of (.ok a)
  bind := bind

instance : MonadLift Outcome Reading := ⟨of⟩

def fail (e : Error) : Reading α := of (Outcome.fail e)

def emit (event : Event) : Reading Unit := ⟨[event], .ok ()⟩

/-- Reports an error of `x` after the events of `x` itself; a fault is not reported. -/
def reporting (report : Error → Event) (x : Reading α) : Reading α :=
  match x.outcome with
  | .error (.error e) => ⟨x.events ++ [report e], x.outcome⟩
  | _ => x

/-- `n` items one after the other, behind the items of `done` (last first) and the events of `log`
(last first). -/
def timesAfter (item : Nat → Reading (α × Nat)) :
    Nat → Nat → List α → List Event → Reading (List α × Nat)
  | 0, offset, done, log => ⟨log.reverse, .ok (done.reverse, offset)⟩
  | n + 1, offset, done, log =>
    match item offset with
    | ⟨events, .ok (a, next)⟩ => timesAfter item n next (a :: done) (events.reverseAux log)
    | ⟨events, .error e⟩ => ⟨(events.reverseAux log).reverse, .error e⟩

/-- `n` items one after the other, the first at `offset`; answers the items and where they end. -/
def times (item : Nat → Reading (α × Nat)) (n offset : Nat) : Reading (List α × Nat) :=
  timesAfter item n offset [] []

/-- Items one after the other until `stop`, with room for `fuel` more of them. -/
def toEndAfter (item : Nat → Reading (α × Nat)) (stop : Nat) :
    Nat → Nat → List α → List Event → Reading (List α × Nat)
  | fuel, offset, done, log =>
    if stop ≤ offset then ⟨log.reverse, .ok (done.reverse, offset)⟩
    else
      match item offset with
      | ⟨events, .error e⟩ => ⟨(events.reverseAux log).reverse, .error e⟩
      | ⟨events, .ok (a, next)⟩ =>
        if next = offset then
          ⟨(events.reverseAux log).reverse, Outcome.fail (.misaligned (stop - offset) 0)⟩
        else
          match fuel with
          | 0 => ⟨(events.reverseAux log).reverse, Outcome.abort .itemWentBack⟩
          | fuel + 1 => toEndAfter item stop fuel next (a :: done) (events.reverseAux log)

/-- Items one after the other from `offset` until `stop`.  An item that takes no byte is an error.
Each other item takes one at least, so there are at most `stop - offset` of them. -/
def toEnd (item : Nat → Reading (α × Nat)) (stop offset : Nat) : Reading (List α × Nat) :=
  toEndAfter item stop (stop - offset) offset [] []

theorem pure_eq (a : α) : (pure a : Reading α) = ⟨[], .ok a⟩ := rfl

@[simp] theorem ok_bind (log : List Event) (a : α) (f : α → Reading β) :
    ((⟨log, .ok a⟩ : Reading α) >>= f) = ⟨log ++ (f a).events, (f a).outcome⟩ := rfl

@[simp] theorem error_bind (log : List Event) (e : Failure) (f : α → Reading β) :
    ((⟨log, .error e⟩ : Reading α) >>= f) = ⟨log, .error e⟩ := rfl

private theorem timesAfter_eq (item : Nat → Reading (α × Nat)) (n offset : Nat) (done : List α)
    (log : List Event) :
    timesAfter item n offset done log =
      (⟨log.reverse, .ok ()⟩ : Reading Unit) >>= fun _ => times item n offset >>= fun r =>
        pure (done.reverse ++ r.1, r.2) := by
  induction n generalizing offset done log with
  | zero => simp [timesAfter, times, pure_eq]
  | succ n ih =>
    unfold times
    rw [timesAfter, timesAfter]
    cases h : item offset with
    | mk events outcome =>
      cases outcome with
      | error e => simp [List.reverseAux_eq]
      | ok r =>
        simp only [List.reverseAux_eq, ih]
        cases hr : times item n r.2 with
        | mk later outcome =>
          cases outcome <;> simp [pure_eq]

theorem times_zero (item : Nat → Reading (α × Nat)) (offset : Nat) :
    times item 0 offset = pure ([], offset) := rfl

theorem times_succ (item : Nat → Reading (α × Nat)) (n offset : Nat) :
    times item (n + 1) offset =
      item offset >>= fun r => times item n r.2 >>= fun s => pure (r.1 :: s.1, s.2) := by
  rw [times, timesAfter]
  cases item offset with
  | mk events outcome =>
    cases outcome with
    | error e => simp [List.reverseAux_eq]
    | ok r =>
      simp only [List.reverseAux_eq, timesAfter_eq]
      cases hr : times item n r.2 with
      | mk later outcome => cases outcome <;> simp [pure_eq, hr]

private theorem map_id (x : Reading α) : id <$> x = x := by
  obtain ⟨log, outcome⟩ := x
  cases outcome with
  | ok a => exact congrArg (fun l => Reading.mk l (.ok a)) (List.append_nil log)
  | error e => rfl

private theorem bind_assoc {γ : Type} (x : Reading α) (f : α → Reading β) (g : β → Reading γ) :
    x >>= f >>= g = x >>= fun a => f a >>= g := by
  obtain ⟨log, outcome⟩ := x
  cases outcome with
  | error e => rfl
  | ok a =>
    cases h : f a with
    | mk later outcome => cases outcome <;> simp [h]

instance : LawfulMonad Reading :=
  LawfulMonad.mk' Reading map_id (fun _ _ => rfl) bind_assoc

end Reading
end ByteSchema
