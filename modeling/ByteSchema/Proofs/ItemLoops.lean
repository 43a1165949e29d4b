import ByteSchema.Proofs.ItemImages

/-!
# The two loops over items

The loop until the end of the input carries what it has done; without that it is a recursion over
the room that is left, as the counted loop is one over the count.  Hence what is done with each item
may be done with all of them afterwards, and there are three ways in which the loop can end.
-/
namespace ByteSchema

variable {α β : Type}

namespace Reading

theorem map_eq (f : α → β) (x : Reading α) : f <$> x = ⟨x.events, x.outcome.map f⟩ := by
  obtain ⟨log, outcome⟩ := x
  cases outcome with
  | ok a => exact congrArg (fun l => Reading.mk l (.ok (f a))) (List.append_nil log)
  | error e => rfl

/-- Items until `stop`, with room for `fuel` more of them. -/
def toEndWithin (item : Nat → Reading (α × Nat)) (stop : Nat) : Nat → Nat → Reading (List α × Nat)
  | fuel, offset =>
    if stop ≤ offset then pure ([], offset)
    else item offset >>= fun r =>
      if r.2 = offset then Reading.fail (.misaligned (stop - offset) 0)
      else
        match fuel with
        | 0 => of (Outcome.abort .itemWentBack)
        | fuel + 1 => toEndWithin item stop fuel r.2 >>= fun s => pure (r.1 :: s.1, s.2)

private theorem toEndAfter_eq (item : Nat → Reading (α × Nat)) (stop fuel offset : Nat)
    (done : List α) (log : List Event) :
    toEndAfter item stop fuel offset done log =
      ⟨log.reverse ++ (toEndWithin item stop fuel offset).events,
        (toEndWithin item stop fuel offset).outcome.map (Prod.map (done.reverse ++ ·) id)⟩ := by
  fun_induction toEndAfter item stop fuel offset done log with
  | case1 fuel offset done log ended =>
    rw [toEndWithin, if_pos ended]
    simp [pure_eq, Except.map]
  | case2 fuel offset done log ended events e h =>
    rw [toEndWithin, if_neg ended, h]
    simp [List.reverseAux_eq, Except.map]
  | case3 fuel done log events a next ended h =>
    rw [toEndWithin, if_neg ended, h]
    simp [Reading.fail, of, Outcome.fail, List.reverseAux_eq, Except.map]
  | case4 offset done log ended events a next h moved =>
    rw [toEndWithin, if_neg ended, h]
    simp [moved, of, Outcome.abort, List.reverseAux_eq, Except.map]
  | case5 offset done log ended events a next h moved fuel ih =>
    rw [toEndWithin, if_neg ended, h, ok_bind, ih]
    simp only [if_neg moved]
    cases toEndWithin item stop fuel next with
    | mk later outcome => cases outcome <;> simp [pure_eq, List.reverseAux_eq, Except.map, Prod.map]

/-- The loop carries what it has done; the recursion puts it together on the way back. -/
theorem toEnd_eq (item : Nat → Reading (α × Nat)) (stop offset : Nat) :
    toEnd item stop offset = toEndWithin item stop (stop - offset) offset := by
  rw [toEnd, toEndAfter_eq]
  cases toEndWithin item stop (stop - offset) offset with
  | mk log outcome => cases outcome <;> rfl

section Maps

variable (f : α → β) (item : Nat → Reading (α × Nat))

theorem times_map (n offset : Nat) :
    times (fun offset => Prod.map f id <$> item offset) n offset =
      Prod.map (List.map f) id <$> times item n offset := by
  induction n generalizing offset with
  | zero => rfl
  | succ n ih =>
    rw [times_succ, times_succ, bind_map_left, map_bind]
    congr 1
    funext r
    simp only [ih, Prod.map_snd, id_eq, bind_map_left, map_bind, map_pure]
    rfl

private theorem toEndWithin_map (stop fuel offset : Nat) :
    toEndWithin (fun offset => Prod.map f id <$> item offset) stop fuel offset =
      Prod.map (List.map f) id <$> toEndWithin item stop fuel offset := by
  fun_induction toEndWithin item stop fuel offset with
  | case1 fuel offset ended =>
    rw [toEndWithin, if_pos ended]
    rfl
  | case2 fuel offset ended ih =>
    rw [toEndWithin, if_neg ended, bind_map_left, map_bind]
    congr 1
    funext r
    simp only [Prod.map_snd, id_eq]
    by_cases still : r.2 = offset
    · rw [if_pos still, if_pos still]
      rfl
    · rw [if_neg still, if_neg still]
      cases fuel with
      | zero => rfl
      | succ fuel =>
        have rest : toEndWithin (fun offset => Prod.map f id <$> item offset) stop fuel r.2 =
            Prod.map (List.map f) id <$> toEndWithin item stop fuel r.2 := ih r
        simp only [rest, bind_map_left, map_bind, map_pure]
        rfl

theorem toEnd_map (stop offset : Nat) :
    toEnd (fun offset => Prod.map f id <$> item offset) stop offset =
      Prod.map (List.map f) id <$> toEnd item stop offset := by
  rw [toEnd_eq, toEnd_eq, toEndWithin_map]

end Maps

section Ends

variable {item : Nat → Reading (α × Nat)} {offset middle stop : Nat} {as : List α}
  {log : List Event} {x : Reading (List α × Nat)}

/-- What the loop does behind a walk that it cannot go on with: the walk has come to the end, or the
next item fails or does not take any byte. -/
inductive Ends (item : Nat → Reading (α × Nat)) (stop middle : Nat) :
    Reading (List α × Nat) → Prop where
  | whole (ended : middle = stop) : Ends item stop middle ⟨[], .ok ([], stop)⟩
  | failed {l : List Event} {e : Failure} (more : middle < stop)
      (last : item middle = ⟨l, .error e⟩) : Ends item stop middle ⟨l, .error e⟩
  | still {l : List Event} {a : α} (more : middle < stop)
      (last : item middle = ⟨l, .ok (a, middle)⟩) :
      Ends item stop middle ⟨l, Outcome.fail (.misaligned (stop - middle) 0)⟩

/-- Behind a walk the loop goes on with the room that is left. -/
private theorem toEndWithin_behind {fuel : Nat} (walk : Walk item (· < ·) offset as middle log)
    (before : middle ≤ stop) (room : stop ≤ offset + fuel) :
    ∃ left, toEndWithin item stop fuel offset =
      (⟨log, .ok as⟩ : Reading (List α)) >>= fun as =>
        toEndWithin item stop left middle >>= fun s => pure (as ++ s.1, s.2) := by
  induction walk generalizing fuel with
  | nil offset =>
    refine ⟨fuel, ?_⟩
    rw [ok_bind, List.nil_append]
    exact (bind_pure _).symm
  | @cons offset next middle a as l m head moves tail ih =>
    have := tail.length_le fun _ _ h => h
    obtain ⟨fuel, rfl⟩ : ∃ k, fuel = k + 1 := ⟨fuel - 1, by omega⟩
    obtain ⟨left, rest⟩ := @ih fuel before (by omega)
    refine ⟨left, ?_⟩
    rw [toEndWithin, if_neg (by omega), head, ok_bind, if_neg (by omega)]
    simp only [rest]
    cases toEndWithin item stop left middle with
    | mk later outcome => cases outcome <;> simp [pure_eq]

/-- The loop answers what its walk and the end of it do. -/
theorem toEnd_of_ends (walk : Walk item (· < ·) offset as middle log) (before : middle ≤ stop)
    (ends : Ends item stop middle x) :
    toEnd item stop offset =
      (⟨log, .ok as⟩ : Reading (List α)) >>= fun as => x >>= fun s => pure (as ++ s.1, s.2) := by
  have room : stop ≤ offset + (stop - offset) := by omega
  obtain ⟨left, rest⟩ := toEndWithin_behind walk before room
  have last : toEndWithin item stop left middle = x := by
    rw [toEndWithin]
    cases ends with
    | whole ended =>
      rw [if_pos (Nat.le_of_eq ended.symm), ended]
      rfl
    | failed more last =>
      rw [if_neg (Nat.not_le.mpr more), last]
      rfl
    | still more last =>
      rw [if_neg (Nat.not_le.mpr more), last, ok_bind, if_pos rfl]
      simp [Reading.fail, of]
  rw [toEnd_eq, rest, last]

/-- Items that go forward, and not beyond the end, are walked over until one of the ends. -/
theorem exists_ends (inside : offset ≤ stop)
    (forward : ∀ {l x a b}, a ≤ stop → item a = ⟨l, .ok (x, b)⟩ → a ≤ b ∧ b ≤ stop) :
    ∃ as middle log x, Walk item (· < ·) offset as middle log ∧ middle ≤ stop ∧
      Ends item stop middle x := by
  generalize hroom : stop - offset = room
  induction room using Nat.strongRecOn generalizing offset with
  | _ room ih =>
    by_cases ended : offset = stop
    · exact ⟨[], offset, [], _, .nil offset, inside, .whole ended⟩
    · have more : offset < stop := by omega
      cases h : item offset with
      | mk l outcome =>
        cases outcome with
        | error e => exact ⟨[], offset, [], _, .nil offset, inside, .failed more h⟩
        | ok r =>
          obtain ⟨a, next⟩ := r
          obtain ⟨le, inside'⟩ := forward inside h
          by_cases same : next = offset
          · exact ⟨[], offset, [], _, .nil offset, inside, .still more (same ▸ h)⟩
          · obtain ⟨as, middle, log, x, walk, before, ends⟩ :=
              ih (stop - next) (by omega) inside' rfl
            exact ⟨a :: as, middle, l ++ log, x, .cons h (by omega) walk, before, ends⟩

end Ends

end Reading

/-- What is done with each item of a list may be done with the list. -/
theorem Items.read_map (f : α → β) (length : Length) (limit : Limit) (size : Outcome Size)
    (item : Nat → Reading (α × Nat)) (bytes : Bytes) (offset : Nat) :
    Items.read length limit size (fun offset => Prod.map f id <$> item offset) bytes offset =
      Prod.map (List.map f) id <$> Items.read length limit size item bytes offset := by
  unfold Items.read
  rw [map_bind]
  congr 1
  funext count
  obtain ⟨count, start⟩ := count
  cases count with
  | some n =>
    simp only [map_bind]
    congr 1
    funext _
    exact Reading.times_map f item n start
  | none =>
    simp only [map_bind]
    congr 1
    funext rest
    congr 1
    funext size
    cases size with
    | varying => exact Reading.toEnd_map f item bytes.size start
    | fixed n =>
      by_cases misaligned : 0 < n ∧ rest.size % n ≠ 0
      · simp only [if_pos misaligned]
        rfl
      · simp only [if_neg misaligned]
        exact Reading.toEnd_map f item bytes.size start

end ByteSchema
