import ByteSchema.Value.Association
import ByteSchema.Proofs.StepInversion
import ByteSchema.Proofs.ValueOrder
import Mathlib.Data.List.Perm.Subperm

/-!
# Pairs gathered into an association

Each pair that overwrites another one is reported.  Without a report the keys were new, so that an
association in the order of insertion holds the pairs as they came.  An association by key holds
them as they came if they came in the order of their keys.  Whatever the pairs, the entries are some
of them, and gathering them once more changes nothing.
-/
namespace ByteSchema.Association

variable {kind : MapKind} {entries out : Entries} {pairs : List (Value × Value)}
  {log events : List Event} {index : Nat}

private theorem event_kept (h : gatherAfter kind log index entries pairs = ⟨events, .ok out⟩)
    {e : Event} (he : e ∈ log) : e ∈ events := by
  induction pairs generalizing log index entries with
  | nil =>
    cases h
    exact List.mem_reverse.mpr he
  | cons pair pairs ih =>
    refine ih h ?_
    by_cases again : hasKey pair.1 entries = true
    · simp only [if_pos again]
      exact List.mem_cons_of_mem _ he
    · simp only [if_neg again]
      exact he

/-- Gathering answers whatever the pairs are. -/
theorem gather_outcome (kind : MapKind) (pairs : List (Value × Value)) :
    (gather kind pairs).outcome = .ok (ofPairs kind pairs) := by
  have from_entries (log : List Event) (index : Nat) (entries : Entries) :
      (gatherAfter kind log index entries pairs).outcome =
        .ok (pairs.foldl (insert kind) entries) := by
    induction pairs generalizing log index entries with
    | nil => rfl
    | cons pair pairs ih => exact ih _ _ _
  exact from_entries [] 0 []

theorem insertLast_of_new {k v : Value} (new : hasKey k entries = false) :
    insertLast k v entries = entries ++ [(k, v)] := by
  induction entries with
  | nil => rfl
  | cons e rest ih =>
    simp only [hasKey, List.any_cons, Bool.or_eq_false_iff, beq_eq_false_iff_ne] at new
    rw [insertLast, if_neg new.1, ih new.2, List.cons_append]

private theorem gatherAfter_insertion
    (h : gatherAfter .insertion log index entries pairs = ⟨events, .ok out⟩)
    (quiet : ∀ i, .keyOverwritten i ∉ events) : out = entries ++ pairs := by
  induction pairs generalizing log index entries with
  | nil =>
    cases h
    exact (List.append_nil _).symm
  | cons pair pairs ih =>
    rw [gatherAfter] at h
    by_cases again : hasKey pair.1 entries = true
    · rw [if_pos again] at h
      exact absurd (event_kept h List.mem_cons_self) (quiet index)
    · rw [if_neg again] at h
      have added := insertLast_of_new (v := pair.2) (Bool.eq_false_iff.mpr again)
      rw [ih h, insert, added, List.append_assoc, List.singleton_append]

theorem gather_insertion (h : gather .insertion pairs = ⟨events, .ok out⟩)
    (quiet : ∀ i, .keyOverwritten i ∉ events) : out = pairs :=
  gatherAfter_insertion h quiet

theorem insertByKey_of_greatest {k v : Value} (greatest : ∀ e ∈ entries, k.order e.1 = .gt) :
    insertByKey k v entries = entries ++ [(k, v)] := by
  induction entries with
  | nil => rfl
  | cons e rest ih =>
    have above := greatest e List.mem_cons_self
    have rest := ih fun d hd => greatest d (List.mem_cons_of_mem e hd)
    simp only [insertByKey, above, rest, List.cons_append]

/-- Pairs that an association keeps as they are and in their places. -/
def Kept : MapKind → List (Value × Value) → Prop
  | .insertion, pairs => pairs.Pairwise fun a b => a.1 ≠ b.1
  | .ascending, pairs => pairs.Pairwise fun a b => a.1.order b.1 = .lt
  | .unordered, pairs => pairs.length ≤ 1

private theorem gatherAfter_of_pairwise {R : Value × Value → Value × Value → Prop}
    (goesLast : ∀ entries pair, (∀ e ∈ entries, R e pair) →
      hasKey pair.1 entries = false ∧ insert kind entries pair = entries ++ [pair])
    (apart : (entries ++ pairs).Pairwise R) :
    gatherAfter kind log index entries pairs = ⟨log.reverse, .ok (entries ++ pairs)⟩ := by
  induction pairs generalizing index entries with
  | nil => rw [gatherAfter, List.append_nil]
  | cons pair pairs ih =>
    have before : ∀ e ∈ entries, R e pair := fun e he =>
      (List.pairwise_append.mp apart).2.2 e he pair List.mem_cons_self
    obtain ⟨new, last⟩ := goesLast entries pair before
    rw [List.append_cons] at apart
    have rest := @ih _ (index + 1) apart
    rw [← List.append_cons] at rest
    rw [gatherAfter, new, if_neg Bool.false_ne_true, last, rest]

private theorem hasKey_of_ne {k : Value} (other : ∀ e ∈ entries, k.order e.1 ≠ .eq) :
    hasKey k entries = false := by
  simpa [hasKey] using fun key value mem => other (key, value) mem

private theorem goesLast_of_new (entries : Entries) (pair : Value × Value)
    (new : ∀ e ∈ entries, e.1 ≠ pair.1) :
    hasKey pair.1 entries = false ∧ insert .insertion entries pair = entries ++ [pair] := by
  have absent : hasKey pair.1 entries = false :=
    hasKey_of_ne fun e he same => new e he (Value.eq_of_order same).symm
  exact ⟨absent, insertLast_of_new absent⟩

private theorem goesLast_of_greatest (kind : MapKind) (byKey : kind ≠ .insertion)
    (entries : Entries) (pair : Value × Value) (less : ∀ e ∈ entries, e.1.order pair.1 = .lt) :
    hasKey pair.1 entries = false ∧ insert kind entries pair = entries ++ [pair] := by
  have greatest : ∀ e ∈ entries, pair.1.order e.1 = .gt := by
    intro e he
    rw [Value.order_swap e.1, less e he, Ordering.swap]
  refine ⟨hasKey_of_ne fun e he same => ?_, ?_⟩
  · rw [greatest e he] at same
    cases same
  · cases kind with
    | insertion => exact absurd rfl byKey
    | ascending => exact insertByKey_of_greatest greatest
    | unordered => exact insertByKey_of_greatest greatest

/-- Gathered again, the pairs are the same association, and nothing is reported. -/
theorem gather_of_kept (kept : Kept kind pairs) : gather kind pairs = ⟨[], .ok pairs⟩ := by
  cases kind with
  | insertion => exact gatherAfter_of_pairwise goesLast_of_new kept
  | ascending => exact gatherAfter_of_pairwise (goesLast_of_greatest _ (by decide)) kept
  | unordered =>
    have ordered : pairs.Pairwise fun a b => a.1.order b.1 = .lt := by
      match pairs, kept with
      | [], _ => exact .nil
      | [pair], _ => exact List.pairwise_singleton _ pair
    exact gatherAfter_of_pairwise (goesLast_of_greatest _ (by decide)) ordered

theorem ofPairs_of_kept (kept : Kept kind pairs) : ofPairs kind pairs = pairs := by
  have answer := gather_outcome kind pairs
  rw [gather_of_kept kept] at answer
  exact (Except.ok.inj answer).symm

/-- The entry that a pair overwrites has its key, so the new entry is the pair itself. -/
private theorem insertLast_subperm (k v : Value) (entries : Entries) :
    (insertLast k v entries).Subperm ((k, v) :: entries) := by
  induction entries with
  | nil => exact .refl _
  | cons e rest ih =>
    rw [insertLast]
    by_cases same : k.order e.1 = .eq
    · rw [if_pos same, ← Value.eq_of_order same, List.subperm_cons]
      exact (List.sublist_cons_self e rest).subperm
    · rw [if_neg same]
      exact ((List.subperm_cons e).mpr ih).trans (List.Perm.swap (k, v) e rest).subperm

private theorem insertByKey_subperm (k v : Value) (entries : Entries) :
    (insertByKey k v entries).Subperm ((k, v) :: entries) := by
  induction entries with
  | nil => exact .refl _
  | cons e rest ih =>
    rw [insertByKey]
    cases h : k.order e.1 with
    | lt => exact .refl _
    | eq =>
      simp only
      rw [← Value.eq_of_order h, List.subperm_cons]
      exact (List.sublist_cons_self e rest).subperm
    | gt => exact ((List.subperm_cons e).mpr ih).trans (List.Perm.swap (k, v) e rest).subperm

private theorem insert_subperm (kind : MapKind) (entries : Entries) (pair : Value × Value) :
    (insert kind entries pair).Subperm (pair :: entries) := by
  cases kind with
  | insertion => exact insertLast_subperm pair.1 pair.2 entries
  | ascending => exact insertByKey_subperm pair.1 pair.2 entries
  | unordered => exact insertByKey_subperm pair.1 pair.2 entries

/-- The entries are pairs, each as often at most as it came. -/
theorem ofPairs_subperm (kind : MapKind) (pairs : List (Value × Value)) :
    (ofPairs kind pairs).Subperm pairs := by
  have from_entries (entries : Entries) :
      (pairs.foldl (insert kind) entries).Subperm (pairs ++ entries) := by
    induction pairs generalizing entries with
    | nil => exact .refl entries
    | cons pair pairs ih =>
      apply (ih (insert kind entries pair)).trans
      apply ((List.subperm_append_left pairs).mpr (insert_subperm kind entries pair)).trans
      exact List.perm_middle.subperm
  have all := from_entries []
  rwa [List.append_nil] at all

private theorem insert_ne_nil (kind : MapKind) (entries : Entries) (pair : Value × Value) :
    insert kind entries pair ≠ [] := by
  cases entries with
  | nil => cases kind <;> exact List.cons_ne_nil _ _
  | cons e rest =>
    cases kind with
    | insertion =>
      simp only [insert, insertLast]
      split <;> exact List.cons_ne_nil _ _
    | ascending | unordered =>
      simp only [insert, insertByKey]
      split <;> exact List.cons_ne_nil _ _

theorem ofPairs_ne_nil (kind : MapKind) (some : pairs ≠ []) : ofPairs kind pairs ≠ [] := by
  have from_entries (entries : Entries) (started : entries ≠ []) (pairs : List (Value × Value)) :
      pairs.foldl (insert kind) entries ≠ [] := by
    induction pairs generalizing entries with
    | nil => exact started
    | cons pair pairs ih => exact ih _ (insert_ne_nil kind entries pair)
  cases pairs with
  | nil => exact absurd rfl some
  | cons pair pairs => exact from_entries _ (insert_ne_nil kind [] pair) pairs

private theorem insertLast_kept {k v : Value} (kept : Kept .insertion entries) :
    Kept .insertion (insertLast k v entries) := by
  induction entries with
  | nil => exact List.pairwise_singleton _ _
  | cons e rest ih =>
    obtain ⟨apart, behind⟩ := List.pairwise_cons.mp kept
    rw [insertLast]
    by_cases same : k.order e.1 = .eq
    · rw [if_pos same]
      exact List.pairwise_cons.mpr ⟨apart, behind⟩
    · rw [if_neg same]
      refine List.pairwise_cons.mpr ⟨?_, ih behind⟩
      intro d hd equal
      rcases List.mem_cons.mp ((insertLast_subperm k v rest).subset hd) with rfl | hd
      · rw [equal] at same
        exact same (Value.order_self k)
      · exact apart d hd equal

private theorem insertByKey_kept {k v : Value} (kept : Kept .ascending entries) :
    Kept .ascending (insertByKey k v entries) := by
  induction entries with
  | nil => exact List.pairwise_singleton _ _
  | cons e rest ih =>
    obtain ⟨above, behind⟩ := List.pairwise_cons.mp kept
    rw [insertByKey]
    cases h : k.order e.1 with
    | lt =>
      refine List.pairwise_cons.mpr ⟨?_, kept⟩
      intro d hd
      rcases List.mem_cons.mp hd with rfl | hd
      · exact h
      · exact Value.order_trans h (above d hd)
    | eq => exact List.pairwise_cons.mpr ⟨above, behind⟩
    | gt =>
      refine List.pairwise_cons.mpr ⟨?_, ih behind⟩
      intro d hd
      rcases List.mem_cons.mp ((insertByKey_subperm k v rest).subset hd) with rfl | hd
      · rw [Value.order_swap k, h, Ordering.swap]
      · exact above d hd

/-- An association with an order of its own is gathered again as it is. -/
theorem ofPairs_kept (ordered : kind ≠ .unordered) (pairs : List (Value × Value)) :
    Kept kind (ofPairs kind pairs) := by
  have from_entries (entries : Entries) (kept : Kept kind entries) :
      Kept kind (pairs.foldl (insert kind) entries) := by
    induction pairs generalizing entries with
    | nil => exact kept
    | cons pair pairs ih =>
      apply ih
      cases kind with
      | insertion => exact insertLast_kept kept
      | ascending => exact insertByKey_kept kept
      | unordered => exact absurd rfl ordered
  apply from_entries
  cases kind with
  | insertion => exact .nil
  | ascending => exact .nil
  | unordered => exact absurd rfl ordered

end ByteSchema.Association
