import ByteSchema.Proofs.Gathering
import Mathlib.Data.List.Induction

/-!
# What becomes of gathered pairs

One more pair at the end of the list replaces the entry of its key, or is the first with its key.
From this step follows what an association holds of any list of pairs: each key once, with the value
of its last pair, at the place of its first pair or in the order of keys.  The pairs that are
reported are those with the key of an earlier one.
-/
namespace ByteSchema.Association

variable {kind : MapKind} {entries : Entries} {pairs : List (Value × Value)} {e : Value × Value}
  {k v : Value}

/-- No pair behind this one has its key. -/
def LastOf (pairs : List (Value × Value)) (e : Value × Value) : Prop :=
  ∃ before after, pairs = before ++ e :: after ∧ ∀ later ∈ after, later.1 ≠ e.1

/-- There is a pair with the key `k` in front of all pairs with the key `l`. -/
def Precedes (pairs : List (Value × Value)) (k l : Value) : Prop :=
  l ≠ k ∧
    ∃ before d after, pairs = before ++ d :: after ∧ d.1 = k ∧ ∀ earlier ∈ before, earlier.1 ≠ l

/-- The positions of pairs with the key of an earlier pair. -/
structure Repeats (pairs : List (Value × Value)) (indices : List Nat) : Prop where
  increasing : indices.Pairwise (· < ·)
  mem_iff : ∀ i, i ∈ indices ↔ ∃ e, pairs[i]? = some e ∧ e.1 ∈ (pairs.take i).map Prod.fst

/-- What the entries of an association have to do with the pairs that came. -/
structure Gathers (kind : MapKind) (pairs : List (Value × Value)) (entries : Entries) : Prop where
  distinct : (entries.map Prod.fst).Nodup
  keys : ∀ k, k ∈ entries.map Prod.fst ↔ k ∈ pairs.map Prod.fst
  last : ∀ e, e ∈ entries ↔ LastOf pairs e
  inOrder : kind = .insertion → (entries.map Prod.fst).Pairwise (Precedes pairs)
  byKey : kind = .ascending → (entries.map Prod.fst).Pairwise fun k l => k.order l = .lt

theorem ofPairs_concat (kind : MapKind) (pairs : List (Value × Value)) (e : Value × Value) :
    ofPairs kind (pairs ++ [e]) = insert kind (ofPairs kind pairs) e := by
  rw [ofPairs, List.foldl_concat, ofPairs]

theorem hasKey_iff : hasKey k entries = true ↔ k ∈ entries.map Prod.fst := by
  rw [hasKey, List.any_eq_true, List.mem_map]
  constructor
  · rintro ⟨d, hd, same⟩
    exact ⟨d, hd, (Value.eq_of_order (beq_iff_eq.mp same)).symm⟩
  · rintro ⟨d, hd, rfl⟩
    exact ⟨d, hd, beq_iff_eq.mpr (Value.order_self d.1)⟩

/-! One more pair among the entries. -/

private theorem mem_replaced {d : Value × Value} {rest : Entries}
    (others : ∀ e ∈ rest, e.1 ≠ d.1) :
    e ∈ (d.1, v) :: rest ↔ e = (d.1, v) ∨ e ∈ d :: rest ∧ e.1 ≠ d.1 := by
  rw [List.mem_cons, List.mem_cons]
  constructor
  · rintro (rfl | he)
    · exact .inl rfl
    · exact .inr ⟨.inr he, others e he⟩
  · rintro (rfl | ⟨rfl | he, other⟩)
    · exact .inl rfl
    · exact absurd rfl other
    · exact .inr he

private theorem mem_behind {d : Value × Value} {rest inserted : Entries} (other : d.1 ≠ k)
    (h : e ∈ inserted ↔ e = (k, v) ∨ e ∈ rest ∧ e.1 ≠ k) :
    e ∈ d :: inserted ↔ e = (k, v) ∨ e ∈ d :: rest ∧ e.1 ≠ k := by
  rw [List.mem_cons, List.mem_cons, h]
  constructor
  · rintro (rfl | rfl | ⟨he, ne⟩)
    · exact .inr ⟨.inl rfl, other⟩
    · exact .inl rfl
    · exact .inr ⟨.inr he, ne⟩
  · rintro (rfl | ⟨rfl | he, ne⟩)
    · exact .inr (.inl rfl)
    · exact .inl rfl
    · exact .inr (.inr ⟨he, ne⟩)

private theorem ne_of_order_ne {k l : Value} (h : k.order l ≠ .eq) : l ≠ k := by
  rintro rfl
  exact h (Value.order_self l)

private theorem mem_insertLast_iff (kept : Kept .insertion entries) :
    e ∈ insertLast k v entries ↔ e = (k, v) ∨ e ∈ entries ∧ e.1 ≠ k := by
  induction entries with
  | nil => simp [insertLast]
  | cons d rest ih =>
    obtain ⟨apart, behind⟩ := List.pairwise_cons.mp kept
    rw [insertLast]
    by_cases same : k.order d.1 = .eq
    · rw [if_pos same, Value.eq_of_order same]
      exact mem_replaced fun e he => (apart e he).symm
    · rw [if_neg same]
      exact mem_behind (ne_of_order_ne same) (ih behind)

private theorem mem_insertByKey_iff (kept : Kept .ascending entries) :
    e ∈ insertByKey k v entries ↔ e = (k, v) ∨ e ∈ entries ∧ e.1 ≠ k := by
  induction entries with
  | nil => simp [insertByKey]
  | cons d rest ih =>
    obtain ⟨above, behind⟩ := List.pairwise_cons.mp kept
    have later {l : Value} {e : Value × Value} (less : l.order e.1 = .lt) : e.1 ≠ l :=
      ne_of_order_ne (by simp [less])
    rw [insertByKey]
    cases h : k.order d.1 with
    | lt =>
      have others : ∀ e ∈ d :: rest, e.1 ≠ k := by
        intro e he
        rcases List.mem_cons.mp he with rfl | he
        · exact later h
        · exact later (Value.order_trans h (above e he))
      rw [List.mem_cons]
      exact or_congr_right ⟨fun he => ⟨he, others e he⟩, And.left⟩
    | eq =>
      rw [Value.eq_of_order h]
      exact mem_replaced fun e he => later (above e he)
    | gt => exact mem_behind (ne_of_order_ne (by simp [h])) (ih behind)

/-- The entry of a key is replaced; no other entry is lost or changed. -/
theorem mem_insert_iff {pair : Value × Value} (ordered : kind ≠ .unordered)
    (kept : Kept kind entries) :
    e ∈ insert kind entries pair ↔ e = pair ∨ e ∈ entries ∧ e.1 ≠ pair.1 := by
  cases kind with
  | insertion => exact mem_insertLast_iff kept
  | ascending => exact mem_insertByKey_iff kept
  | unordered => exact absurd rfl ordered

theorem keys_insertLast (k v : Value) (entries : Entries) :
    (insertLast k v entries).map Prod.fst =
      if hasKey k entries then entries.map Prod.fst else entries.map Prod.fst ++ [k] := by
  by_cases again : hasKey k entries = true
  · rw [if_pos again]
    induction entries with
    | nil => cases again
    | cons d rest ih =>
      rw [insertLast]
      by_cases same : k.order d.1 = .eq
      · rw [if_pos same, List.map_cons, List.map_cons]
      · rw [if_neg same, List.map_cons, List.map_cons, ih]
        simpa [hasKey, same] using again
  · rw [if_neg again, insertLast_of_new (Bool.eq_false_iff.mpr again), List.map_append,
      List.map_singleton]

/-! One more pair at the end of the list. -/

theorem lastOf_concat_iff {pair : Value × Value} :
    LastOf (pairs ++ [pair]) e ↔ e = pair ∨ LastOf pairs e ∧ e.1 ≠ pair.1 := by
  constructor
  · rintro ⟨before, after, split, last⟩
    rcases List.eq_nil_or_concat after with rfl | ⟨after, final, rfl⟩
    · exact .inl (List.singleton_inj.mp (List.append_inj' split rfl).2).symm
    · have split : pairs ++ [pair] = (before ++ e :: after) ++ [final] := by simpa using split
      obtain ⟨rfl, same⟩ := List.append_inj' split rfl
      obtain rfl := List.singleton_inj.mp same
      simp only [List.concat_eq_append, List.mem_append, List.mem_singleton] at last
      exact .inr ⟨⟨before, after, rfl, fun later mem => last later (.inl mem)⟩,
        (last pair (.inr rfl)).symm⟩
  · rintro (rfl | ⟨⟨before, after, rfl, last⟩, other⟩)
    · exact ⟨pairs, [], rfl, by simp⟩
    · refine ⟨before, after ++ [pair], by simp, ?_⟩
      intro later mem
      rcases List.mem_append.mp mem with mem | mem
      · exact last later mem
      · rw [List.mem_singleton.mp mem]
        exact other.symm

private theorem precedes_concat {l : Value} (pair : Value × Value) (h : Precedes pairs k l) :
    Precedes (pairs ++ [pair]) k l := by
  obtain ⟨other, before, d, after, rfl, key, first⟩ := h
  exact ⟨other, before, d, after ++ [pair], by simp, key, first⟩

private theorem precedes_new {pair : Value × Value} (old : k ∈ pairs.map Prod.fst)
    (new : pair.1 ∉ pairs.map Prod.fst) : Precedes (pairs ++ [pair]) k pair.1 := by
  obtain ⟨d, hd, rfl⟩ := List.mem_map.mp old
  obtain ⟨before, after, rfl⟩ := List.append_of_mem hd
  have absent {e : Value × Value} (he : e ∈ before ++ d :: after) : e.1 ≠ pair.1 :=
    fun same => new (List.mem_map.mpr ⟨e, he, same⟩)
  refine ⟨(absent hd).symm, before, d, after ++ [pair], by simp, rfl, fun e he => ?_⟩
  exact absent (List.mem_append_left _ he)

private theorem mem_ofPairs_iff (ordered : kind ≠ .unordered) (pairs : List (Value × Value))
    (e : Value × Value) : e ∈ ofPairs kind pairs ↔ LastOf pairs e := by
  induction pairs using List.reverseRecOn with
  | nil =>
    simp only [ofPairs, List.foldl_nil, List.not_mem_nil, false_iff]
    rintro ⟨before, after, split, -⟩
    exact List.cons_ne_nil e after (List.append_eq_nil_iff.mp split.symm).2
  | append_singleton pairs pair ih =>
    rw [ofPairs_concat, mem_insert_iff ordered (ofPairs_kept ordered pairs), lastOf_concat_iff, ih]

private theorem mem_keys_iff (ordered : kind ≠ .unordered) (pairs : List (Value × Value))
    (k : Value) : k ∈ (ofPairs kind pairs).map Prod.fst ↔ k ∈ pairs.map Prod.fst := by
  induction pairs using List.reverseRecOn with
  | nil => rfl
  | append_singleton pairs pair ih =>
    rw [List.map_append, List.mem_append, ← ih, ofPairs_concat]
    simp only [List.mem_map, mem_insert_iff ordered (ofPairs_kept ordered pairs),
      List.map_singleton, List.mem_singleton]
    constructor
    · rintro ⟨e, rfl | ⟨he, -⟩, rfl⟩
      · exact .inr rfl
      · exact .inl ⟨e, he, rfl⟩
    · rintro (⟨e, he, rfl⟩ | rfl)
      · by_cases same : e.1 = pair.1
        · exact ⟨pair, .inl rfl, same.symm⟩
        · exact ⟨e, .inr ⟨he, same⟩, rfl⟩
      · exact ⟨pair, .inl rfl, rfl⟩

/-- A key that comes again keeps its place. -/
private theorem keys_inOrder (pairs : List (Value × Value)) :
    ((ofPairs .insertion pairs).map Prod.fst).Pairwise (Precedes pairs) := by
  induction pairs using List.reverseRecOn with
  | nil => exact .nil
  | append_singleton pairs pair ih =>
    have before := ih.imp fun h => precedes_concat pair h
    rw [ofPairs_concat, insert, keys_insertLast]
    by_cases again : hasKey pair.1 (ofPairs .insertion pairs) = true
    · rw [if_pos again]
      exact before
    · have keys : ∀ k, k ∈ (ofPairs .insertion pairs).map Prod.fst ↔ k ∈ pairs.map Prod.fst :=
        mem_keys_iff (by decide) pairs
      rw [hasKey_iff, keys] at again
      rw [if_neg (by rwa [hasKey_iff, keys]), List.pairwise_append]
      refine ⟨before, List.pairwise_singleton _ _, fun k hk l hl => ?_⟩
      rw [List.mem_singleton.mp hl]
      exact precedes_new ((keys k).mp hk) again

private theorem ofPairs_gathers_of_ordered (ordered : kind ≠ .unordered)
    (pairs : List (Value × Value)) : Gathers kind pairs (ofPairs kind pairs) where
  distinct := by
    have kept := ofPairs_kept ordered pairs
    rw [List.Nodup, List.pairwise_map]
    cases kind with
    | insertion => exact kept
    | ascending => exact kept.imp fun less => (ne_of_order_ne (by simp [less])).symm
    | unordered => exact absurd rfl ordered
  keys := mem_keys_iff ordered pairs
  last := mem_ofPairs_iff ordered pairs
  inOrder := by
    rintro rfl
    exact keys_inOrder pairs
  byKey := by
    rintro rfl
    exact List.pairwise_map.mpr (ofPairs_kept ordered pairs)

theorem ofPairs_gathers (kind : MapKind) (pairs : List (Value × Value)) :
    Gathers kind pairs (ofPairs kind pairs) := by
  cases kind with
  | insertion => exact ofPairs_gathers_of_ordered (by decide) pairs
  | ascending => exact ofPairs_gathers_of_ordered (by decide) pairs
  | unordered =>
    -- The entries are those of an association by key; only the promise of an order is not made.
    have same : Gathers .ascending pairs (ofPairs .ascending pairs) :=
      ofPairs_gathers_of_ordered (by decide) pairs
    exact ⟨same.distinct, same.keys, same.last, by simp, by simp⟩

namespace Gathers

private theorem keys_subperm (h : Gathers kind pairs entries) :
    (entries.map Prod.fst).Subperm (pairs.map Prod.fst) :=
  List.subperm_of_subset h.distinct fun k => (h.keys k).mp

theorem length_le (h : Gathers kind pairs entries) : entries.length ≤ pairs.length := by
  simpa using h.keys_subperm.length_le

/-- There are as many entries as pairs just where no key came again. -/
theorem length_eq_iff (h : Gathers kind pairs entries) :
    entries.length = pairs.length ↔ (pairs.map Prod.fst).Nodup := by
  constructor
  · intro same
    have perm := h.keys_subperm.perm_of_length_le (by simp [same])
    exact perm.nodup h.distinct
  · intro distinct
    have perm := (List.perm_ext_iff_of_nodup h.distinct distinct).mpr h.keys
    simpa using perm.length_eq

end Gathers

/-! The reports. -/

private theorem gatherAfter_concat (log : List Event) (index : Nat) (entries : Entries)
    (pairs : List (Value × Value)) (pair : Value × Value) :
    gatherAfter kind log index entries (pairs ++ [pair]) =
      gatherAfter kind log index entries pairs >>= fun entries =>
        ⟨if hasKey pair.1 entries then [.keyOverwritten (index + pairs.length)] else [],
          .ok (insert kind entries pair)⟩ := by
  induction pairs generalizing log index entries with
  | nil =>
    simp only [List.nil_append, gatherAfter, Reading.ok_bind, List.length_nil, Nat.add_zero]
    split <;> simp
  | cons d pairs ih =>
    rw [List.cons_append, gatherAfter, gatherAfter, ih, List.length_cons,
      show index + 1 + pairs.length = index + (pairs.length + 1) by omega]

private theorem repeats_concat {indices : List Nat} (pair : Value × Value)
    (h : Repeats pairs indices) {again : Bool}
    (hagain : again = true ↔ pair.1 ∈ pairs.map Prod.fst) :
    Repeats (pairs ++ [pair]) (indices ++ if again then [pairs.length] else []) := by
  have below : ∀ i ∈ indices, i < pairs.length := by
    intro i hi
    obtain ⟨e, he, -⟩ := (h.mem_iff i).mp hi
    exact (List.getElem?_eq_some_iff.mp he).1
  constructor
  · refine List.pairwise_append.mpr ⟨h.increasing, by split <;> simp, fun i hi j hj => ?_⟩
    have : j = pairs.length := by
      split at hj
      · exact List.mem_singleton.mp hj
      · cases hj
    exact this ▸ below i hi
  · intro i
    rw [List.mem_append]
    rcases Nat.lt_trichotomy i pairs.length with inside | rfl | beyond
    · have here : i ∉ if again then [pairs.length] else [] := by
        split <;> simp [Nat.ne_of_lt inside]
      rw [List.getElem?_append_left inside, List.take_append_of_le_length (Nat.le_of_lt inside),
        ← h.mem_iff, or_iff_left here]
    · have earlier : pairs.length ∉ indices := fun hi => Nat.lt_irrefl _ (below _ hi)
      rw [or_iff_right earlier, List.getElem?_concat_length, List.take_left]
      simp only [Option.some.injEq, exists_eq_left', ← hagain]
      cases again <;> simp
    · have earlier : i ∉ indices := fun hi => Nat.lt_asymm beyond (below i hi)
      have here : i ∉ if again then [pairs.length] else [] := by
        split <;> simp [Nat.ne_of_gt beyond]
      have nothing : (pairs ++ [pair])[i]? = none := by
        rw [List.getElem?_eq_none_iff, List.length_append]
        exact beyond
      simp only [or_iff_right earlier, here, nothing, false_iff]
      rintro ⟨_, h, -⟩
      cases h

/-- Gathering reports the pairs that overwrite an earlier one, in their order. -/
theorem gather_repeats (kind : MapKind) (pairs : List (Value × Value)) :
    ∃ indices, gather kind pairs = ⟨indices.map .keyOverwritten, .ok (ofPairs kind pairs)⟩ ∧
      Repeats pairs indices := by
  induction pairs using List.reverseRecOn with
  | nil => exact ⟨[], rfl, .nil, by simp⟩
  | append_singleton pairs pair ih =>
    obtain ⟨indices, hgather, repeats⟩ := ih
    have again := hasKey_iff.trans ((ofPairs_gathers kind pairs).keys pair.1)
    refine ⟨_, ?_, repeats_concat pair repeats again⟩
    rw [gather, gatherAfter_concat, ← gather, hgather, Reading.ok_bind, ofPairs_concat,
      List.map_append, Nat.zero_add]
    split <;> rfl

end ByteSchema.Association
