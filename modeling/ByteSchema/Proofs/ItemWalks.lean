import ByteSchema.Proofs.ByteSpans

/-!
# Items read one after the other

A walk is a run of successful reads, each starting where the one before ended.  Both loops over
items answer the walks: the counted one those of the right length, the other one those that go on
until the end and never stand still.
-/
namespace ByteSchema.Reading

variable {α : Type} {item : Nat → Reading (α × Nat)} {step : Nat → Nat → Prop}

/-- The items read from one offset to another, with the events of all of them; `step` holds between
the start and the end of each. -/
inductive Walk (item : Nat → Reading (α × Nat)) (step : Nat → Nat → Prop) :
    Nat → List α → Nat → List Event → Prop where
  | nil (offset : Nat) : Walk item step offset [] offset []
  | cons {offset middle stop : Nat} {a : α} {as : List α} {l m : List Event}
      (head : item offset = ⟨l, .ok (a, middle)⟩) (moves : step offset middle)
      (tail : Walk item step middle as stop m) : Walk item step offset (a :: as) stop (l ++ m)

/-- A walk takes any other steps that its own steps and its items make sure of. -/
theorem Walk.refine {step' : Nat → Nat → Prop} {offset stop : Nat} {as : List α}
    {log : List Event} (h : Walk item step offset as stop log)
    (each : ∀ {l x a b}, item a = ⟨l, .ok (x, b)⟩ → step a b → step' a b) :
    Walk item step' offset as stop log := by
  induction h with
  | nil offset => exact .nil offset
  | cons head moves tail ih => exact .cons head (each head moves) ih

theorem Walk.mono {step' : Nat → Nat → Prop} {offset stop : Nat} {as : List α} {log : List Event}
    (h : Walk item step offset as stop log) (weaker : ∀ a b, step a b → step' a b) :
    Walk item step' offset as stop log :=
  h.refine fun _ moves => weaker _ _ moves

/-- What holds at the start and goes on with every item holds wherever an item starts. -/
theorem Walk.along {P : Nat → Prop} {offset stop : Nat} {as : List α} {log : List Event}
    (h : Walk item step offset as stop log) (start : P offset)
    (each : ∀ {l x a b}, item a = ⟨l, .ok (x, b)⟩ → P a → P b) :
    Walk item (fun a _ => P a) offset as stop log := by
  induction h with
  | nil offset => exact .nil offset
  | cons head moves tail ih => exact .cons head start (ih (each head start))

theorem Walk.forall_mem {P : α → Prop} {offset stop : Nat} {as : List α} {log : List Event}
    (h : Walk item step offset as stop log)
    (each : ∀ {l x a b}, item a = ⟨l, .ok (x, b)⟩ → step a b → P x) : ∀ x ∈ as, P x := by
  induction h with
  | nil offset => simp
  | cons head moves tail ih => exact List.forall_mem_cons.mpr ⟨each head moves, ih⟩

/-- Steps that only go forward take as much room as there are items. -/
theorem Walk.length_le {offset stop : Nat} {as : List α} {log : List Event}
    (h : Walk item step offset as stop log) (forward : ∀ a b, step a b → a < b) :
    offset + as.length ≤ stop := by
  induction h with
  | nil offset => simp
  | cons head moves tail ih =>
    have := forward _ _ moves
    rw [List.length_cons]
    omega

/-- Steps that only go forward stay in front of the end. -/
theorem Walk.before_stop {offset stop : Nat} {as : List α} {log : List Event}
    (h : Walk item step offset as stop log) (forward : ∀ a b, step a b → a < b) :
    Walk item (fun a b => a < stop ∧ b ≠ a) offset as stop log := by
  induction h with
  | nil offset => exact .nil offset
  | cons head moves tail ih =>
    have := forward _ _ moves
    have := tail.length_le forward
    exact .cons head ⟨by omega, by omega⟩ ih

/-- What relates the start and the end of single reads relates those of a walk. -/
theorem Walk.related {R : Nat → Nat → Prop} {offset stop : Nat} {as : List α} {log : List Event}
    (h : Walk item step offset as stop log) (refl : ∀ a, R a a)
    (trans : ∀ a b c, R a b → R b c → R a c)
    (each : ∀ {l x a b}, item a = ⟨l, .ok (x, b)⟩ → R a b) : R offset stop := by
  induction h with
  | nil offset => exact refl offset
  | cons head moves tail ih => exact trans _ _ _ (each head) ih

/-- A walk is one of any other item that answers the same up to its end. -/
theorem Walk.transport {item' : Nat → Reading (α × Nat)} {last offset stop : Nat} {as : List α}
    {log : List Event} (h : Walk item step offset as stop log) (le : stop ≤ last)
    (stays : ∀ {l x a b}, item a = ⟨l, .ok (x, b)⟩ → a ≤ b)
    (each : ∀ {l x a b}, item a = ⟨l, .ok (x, b)⟩ → b ≤ last → item' a = ⟨l, .ok (x, b)⟩) :
    Walk item' step offset as stop log := by
  induction h with
  | nil offset => exact .nil offset
  | cons head moves tail ih =>
    have behind := tail.related Nat.le_refl (fun _ _ _ => Nat.le_trans) stays
    exact .cons (each head (Nat.le_trans behind le)) moves (ih le)

theorem Walk.stop_eq {k offset stop : Nat} {as : List α} {log : List Event}
    (h : Walk item step offset as stop log)
    (each : ∀ {l x a b}, item a = ⟨l, .ok (x, b)⟩ → b = a + k) :
    stop = offset + k * as.length := by
  induction h with
  | nil offset => simp
  | cons head moves tail ih =>
    have := each head
    rw [List.length_cons, Nat.mul_succ]
    omega

theorem times_eq_ok_iff {n offset stop : Nat} {as : List α} {log : List Event} :
    times item n offset = ⟨log, .ok (as, stop)⟩ ↔
      as.length = n ∧ Walk item (fun _ _ => True) offset as stop log := by
  induction n generalizing offset stop as log with
  | zero =>
    rw [times_zero, pure_eq_ok, Prod.mk.injEq, List.length_eq_zero_iff]
    constructor
    · rintro ⟨⟨rfl, rfl⟩, rfl⟩
      exact ⟨rfl, .nil _⟩
    · rintro ⟨rfl, walk⟩
      cases walk
      exact ⟨⟨rfl, rfl⟩, rfl⟩
  | succ n ih =>
    simp only [times_succ, bind_eq_ok, pure_eq_ok, Prod.exists, Prod.mk.injEq, ih]
    constructor
    · rintro ⟨l, a, middle, _, head, ⟨m, as, stop, _, ⟨rfl, tail⟩, ⟨⟨rfl, rfl⟩, rfl⟩, rfl⟩, rfl⟩
      rw [List.append_nil]
      exact ⟨rfl, .cons head trivial tail⟩
    · rintro ⟨length, walk⟩
      cases walk with
      | nil => cases length
      | @cons _ middle _ a as l m head moves tail =>
        exact ⟨l, a, middle, m, head, ⟨m, as, stop, [], ⟨Nat.succ.inj length, tail⟩,
          ⟨⟨rfl, rfl⟩, rfl⟩, (List.append_nil m).symm⟩, rfl⟩

private theorem toEndAfter_step {stop fuel offset final : Nat} {done as : List α}
    {before log : List Event} :
    toEndAfter item stop fuel offset done before = ⟨log, .ok (as, final)⟩ ↔
      (stop ≤ offset ∧ as = done.reverse ∧ log = before.reverse ∧ final = offset) ∨
        (offset < stop ∧ ∃ events a next fuel', item offset = ⟨events, .ok (a, next)⟩ ∧
          next ≠ offset ∧ fuel = fuel' + 1 ∧
          toEndAfter item stop fuel' next (a :: done) (events.reverseAux before) =
            ⟨log, .ok (as, final)⟩) := by
  rw [toEndAfter]
  by_cases ended : stop ≤ offset
  · rw [if_pos ended]
    simp only [Reading.mk.injEq, Except.ok.injEq, Prod.mk.injEq]
    constructor
    · rintro ⟨rfl, rfl, rfl⟩
      exact .inl ⟨ended, rfl, rfl, rfl⟩
    · rintro (⟨-, rfl, rfl, rfl⟩ | ⟨more, -⟩)
      · exact ⟨rfl, rfl, rfl⟩
      · omega
  · rw [if_neg ended]
    cases h : item offset with
    | mk events outcome =>
      cases outcome with
      | error e => simp [ended]
      | ok r =>
        obtain ⟨a, next⟩ := r
        by_cases still : next = offset
        · simp [ended, still, Outcome.fail]
        · cases fuel with
          | zero => simp [ended, still, Outcome.abort]
          | succ fuel =>
            simp only [if_neg still]
            constructor
            · intro h'
              exact .inr ⟨by omega, events, a, next, fuel, rfl, still, rfl, h'⟩
            · rintro (⟨ended', -⟩ | ⟨-, _, _, _, _, hitem, -, hfuel, h'⟩)
              · omega
              · cases hitem
                cases hfuel
                exact h'

private theorem toEndAfter_eq_ok_iff {stop fuel offset final : Nat} {done as : List α}
    {before log : List Event} :
    toEndAfter item stop fuel offset done before = ⟨log, .ok (as, final)⟩ ↔
      ∃ rest m, as = done.reverse ++ rest ∧ log = before.reverse ++ m ∧ rest.length ≤ fuel ∧
        stop ≤ final ∧ Walk item (fun a b => a < stop ∧ b ≠ a) offset rest final m := by
  induction fuel generalizing offset done before with
  | zero =>
    rw [toEndAfter_step]
    constructor
    · rintro (⟨ended, rfl, rfl, rfl⟩ | ⟨_, _, _, _, _, _, _, hfuel, _⟩)
      · exact ⟨[], [], by simp, by simp, Nat.le_refl 0, ended, .nil _⟩
      · cases hfuel
    · rintro ⟨rest, m, rfl, rfl, few, ended, walk⟩
      cases walk with
      | nil => exact .inl ⟨ended, by simp, by simp, rfl⟩
      | cons head moves tail => simp at few
  | succ fuel ih =>
    rw [toEndAfter_step]
    constructor
    · rintro (⟨ended, rfl, rfl, rfl⟩ | ⟨more, l, a, next, _, hitem, still, hfuel, h⟩)
      · exact ⟨[], [], by simp, by simp, Nat.zero_le _, ended, .nil _⟩
      · cases hfuel
        obtain ⟨rest, m, rfl, rfl, few, ended, walk⟩ := ih.mp h
        exact ⟨a :: rest, l ++ m, by simp, by simp [List.reverseAux_eq], Nat.succ_le_succ few,
          ended, .cons hitem ⟨more, still⟩ walk⟩
    · rintro ⟨rest, m, rfl, rfl, few, ended, walk⟩
      cases walk with
      | nil => exact .inl ⟨ended, by simp, by simp, rfl⟩
      | @cons _ next _ a rest l m head moves tail =>
        refine .inr ⟨moves.1, l, a, next, fuel, head, moves.2, rfl, ih.mpr ?_⟩
        exact ⟨rest, m, by simp, by simp [List.reverseAux_eq], Nat.le_of_succ_le_succ few, ended,
          tail⟩

/-- Until the end: every item starts before it and takes something. -/
theorem toEnd_eq_ok_iff {stop offset final : Nat} {as : List α} {log : List Event} :
    toEnd item stop offset = ⟨log, .ok (as, final)⟩ ↔
      as.length ≤ stop - offset ∧ stop ≤ final ∧
        Walk item (fun a b => a < stop ∧ b ≠ a) offset as final log := by
  rw [toEnd, toEndAfter_eq_ok_iff]
  constructor
  · rintro ⟨rest, m, rfl, rfl, few, ended, walk⟩
    exact ⟨few, ended, walk⟩
  · rintro ⟨few, ended, walk⟩
    exact ⟨as, log, rfl, rfl, few, ended, walk⟩

end ByteSchema.Reading
