import ByteSchema.Schema.Write
import ByteSchema.Schema.Validity
import ByteSchema.Proofs.ItemLoops
import ByteSchema.Proofs.KeyedPairs
import ByteSchema.Proofs.SchemaParts
import ByteSchema.Proofs.ReadInversion

/-!
# Maps as arrays of pairs

A map is written and read by code of its own.  It comes to what an array of tuples of two does: the
same checks, the same size, the same bytes and the same failures.  Only behind a successful read is
there more to do, since pairs with one key have to become one entry.
-/
namespace ByteSchema

variable {α β : Type}

namespace Outcome

private theorem ok_bind (a : α) (f : α → Outcome β) : (.ok a : Outcome α) >>= f = f a := rfl

private theorem bind_ok (x : Outcome α) : (x >>= fun a => .ok a) = x := bind_pure x

/-- The first step answers what the second does, unless one of its sums is no address. -/
def EqUnlessOverflow (x y : Outcome α) : Prop := x ≠ abort .additionOverflow → x = y

namespace EqUnlessOverflow

theorem refl (x : Outcome α) : EqUnlessOverflow x x := fun _ => rfl

theorem bind {x y : Outcome α} {f g : α → Outcome β} (h : EqUnlessOverflow x y)
    (hf : ∀ a, EqUnlessOverflow (f a) (g a)) : EqUnlessOverflow (x >>= f) (y >>= g) := by
  intro inRange
  cases x with
  | ok a =>
    rw [← h (by simp [abort])]
    exact hf a inRange
  | error e =>
    have same : (.error e : Outcome α) = y := by
      apply h
      rintro ⟨⟩
      exact inRange rfl
    rw [← same]
    rfl

theorem foldlM {add add' : β → α → Outcome β}
    (h : ∀ sum a, EqUnlessOverflow (add sum a) (add' sum a)) (items : List α) (sum : β) :
    EqUnlessOverflow (items.foldlM add sum) (items.foldlM add' sum) := by
  induction items generalizing sum with
  | nil => exact refl _
  | cons a items ih => exact bind (h sum a) ih

private theorem checkedAdd_of_lt {a b : Nat} (small : a + b < addressSpace) :
    checkedAdd a b = .ok (a + b) := if_pos small

private theorem checkedAdd_of_le {a b : Nat} (large : addressSpace ≤ a + b) :
    checkedAdd a b = abort .additionOverflow := if_neg (Nat.not_lt.mpr large)

/-- Where two numbers may be added one after the other, their sum may be added as well. -/
theorem add_add (sum : Nat) (x y : Outcome Nat) :
    EqUnlessOverflow
      (do
        let sum ← checkedAdd sum (← x)
        checkedAdd sum (← y))
      (do
        let first ← checkedAdd 0 (← x)
        checkedAdd sum (← checkedAdd first (← y))) := by
  refine bind (refl x) fun a inRange => ?_
  by_cases small : sum + a < addressSpace
  · have first : checkedAdd 0 a = .ok a := by
      rw [checkedAdd_of_lt (by omega), Nat.zero_add]
    simp only [checkedAdd_of_lt small, first, ok_bind] at inRange ⊢
    refine bind (refl y) (fun b inRange => ?_) inRange
    by_cases small' : sum + a + b < addressSpace
    · have inner : checkedAdd a b = .ok (a + b) := checkedAdd_of_lt (by omega)
      have outer : checkedAdd sum (a + b) = .ok (sum + (a + b)) := checkedAdd_of_lt (by omega)
      simp only [checkedAdd_of_lt small', inner, ok_bind, outer, Nat.add_assoc]
    · exact absurd (checkedAdd_of_le (Nat.not_lt.mp small')) inRange
  · rw [checkedAdd_of_le (Nat.not_lt.mp small)] at inRange
    exact absurd rfl inRange

end EqUnlessOverflow
end Outcome

/-- A pair as what a tuple of two holds. -/
def Value.ofPair (e : Value × Value) : Value := .list [e.1, e.2]

private theorem ofPairs_injective : Function.Injective (List.map Value.ofPair) := by
  apply List.map_injective_iff.mpr
  rintro ⟨k, v⟩ ⟨l, w⟩ same
  cases same
  rfl

namespace Schema

variable (kind : MapKind) (key value : Schema) (length : Length) (limit : Limit)

/-- The array of the pairs of a map. -/
def pairArray : Schema := array (tuple [key, value]) length limit

theorem tuple_pair_size : (tuple [key, value]).size = Items.pairSize key.size value.size := by
  simp only [tuple, List.map_cons, List.map_nil, size, sizeAfter, Outcome.bind_ok, Items.pairSize]

theorem validate_map :
    (map kind key value length limit).validate = (pairArray key value length limit).validate := by
  rw [pairArray, validate, validate, tuple_pair_size]
  simp only [tuple, List.map_cons, List.map_nil, validate, validateFields, bind_assoc,
    Outcome.ok_bind]

theorem size_map :
    (map kind key value length limit).size = (pairArray key value length limit).size := by
  rw [pairArray, size, size, tuple_pair_size]

theorem encodeSize_map (entries : List (Value × Value)) :
    ((map kind key value length limit).encodeSize (.map entries)).EqUnlessOverflow
      ((pairArray key value length limit).encodeSize (.list (entries.map .ofPair))) := by
  have pair (e : Value × Value) : (tuple [key, value]).encodeSize (.ofPair e) =
      (do
        let first ← checkedAdd 0 (← key.encodeSize e.1)
        checkedAdd first (← value.encodeSize e.2)) := by
    change encodeSizeAfter 0 [⟨none, key⟩, ⟨none, value⟩] [e.1, e.2] = _
    simp only [encodeSizeAfter, Outcome.bind_ok]
  change (Items.encodeSize length (Items.pairSize key.size value.size) _ entries).EqUnlessOverflow
    (Items.encodeSize length (tuple [key, value]).size _ (entries.map Value.ofPair))
  rw [Items.encodeSize, Items.encodeSize, tuple_pair_size, List.length_map]
  refine .bind (.refl _) fun count => .bind (.refl _) fun size => ?_
  cases size with
  | fixed n => exact .refl _
  | varying =>
    simp only [List.foldlM_map, pair, bind_assoc]
    exact .foldlM (fun sum e => .add_add sum _ _) entries count

theorem write_map (entries : List (Value × Value)) (offset : Nat) :
    (map kind key value length limit).write (.map entries) offset =
      (pairArray key value length limit).write (.list (entries.map .ofPair)) offset := by
  have pair (e : Value × Value) (offset : Nat) : (tuple [key, value]).write (.ofPair e) offset =
      (do
        let middle ← key.write e.1 offset
        value.write e.2 middle) := by
    change writeFields [⟨none, key⟩, ⟨none, value⟩] [e.1, e.2] offset = _
    simp only [writeFields, bind_pure]
  change Items.write length _ entries offset =
    Items.write length _ (entries.map Value.ofPair) offset
  simp only [Items.write, List.length_map, List.foldlM_map, pair]

theorem read_pair (bytes : Bytes) (offset : Nat) :
    (tuple [key, value]).read bytes offset =
      Prod.map .ofPair id <$> readPair key value bytes offset := by
  simp only [tuple, List.map_cons, List.map_nil, read, readFields, reportField, readPair,
    map_bind, map_pure, bind_assoc, pure_bind]
  rfl

theorem read_pairArray (bytes : Bytes) (offset : Nat) :
    (pairArray key value length limit).read bytes offset =
      Prod.map (fun pairs => .list (pairs.map Value.ofPair)) id <$>
        Items.read length limit (Items.pairSize key.size value.size) (readPair key value bytes)
          bytes offset := by
  have items : (tuple [key, value]).read bytes =
      fun offset => Prod.map Value.ofPair id <$> readPair key value bytes offset :=
    funext (read_pair key value bytes)
  rw [pairArray, read, items, tuple_pair_size, Items.read_map, bind_map_left]
  exact bind_pure_comp _ _

/-- Pairs are read alike; a map gathers them and reports the keys that come again. -/
theorem read_map_cases (bytes : Bytes) (offset : Nat) :
    (∃ log e, (pairArray key value length limit).read bytes offset = ⟨log, .error e⟩ ∧
      (map kind key value length limit).read bytes offset = ⟨log, .error e⟩) ∨
    ∃ log pairs stop indices,
      (pairArray key value length limit).read bytes offset =
        ⟨log, .ok (.list (pairs.map .ofPair), stop)⟩ ∧
      (map kind key value length limit).read bytes offset =
        ⟨log ++ indices.map .keyOverwritten,
          .ok (.map (Association.ofPairs kind pairs), stop)⟩ ∧
      Association.Repeats pairs indices := by
  rw [read_pairArray]
  change (∃ log e, _ ∧ (Items.read length limit (Items.pairSize key.size value.size)
    (readPair key value bytes) bytes offset >>= _) = _) ∨ ∃ log pairs stop indices, _ ∧
      (Items.read length limit (Items.pairSize key.size value.size) (readPair key value bytes)
        bytes offset >>= _) = _ ∧ _
  cases Items.read length limit (Items.pairSize key.size value.size) (readPair key value bytes)
      bytes offset with
  | mk log outcome =>
    cases outcome with
    | error e => exact .inl ⟨log, e, rfl, rfl⟩
    | ok r =>
      obtain ⟨pairs, stop⟩ := r
      obtain ⟨indices, hgather, repeats⟩ := Association.gather_repeats kind pairs
      refine .inr ⟨log, pairs, stop, indices, ?_, ?_, repeats⟩
      · rw [Reading.map_eq]
        rfl
      · simp [hgather, Reading.pure_eq]

/-! Only maps report anything behind a successful read. -/

def isMap : Schema → Bool
  | map .. => true
  | _ => false

private theorem walk_quiet {item : Nat → Reading (α × Nat)} {step : Nat → Nat → Prop}
    {offset stop : Nat} {as : List α} {log : List Event}
    (walk : Reading.Walk item step offset as stop log)
    (each : ∀ {l x a b}, item a = ⟨l, .ok (x, b)⟩ → l = []) : log = [] := by
  induction walk with
  | nil offset => rfl
  | cons head moves tail ih => rw [each head, ih, List.append_nil]

private theorem readFields_quiet {fields : List (Field Schema)} {bytes : Bytes} {offset stop : Nat}
    {vs : List Value} {log : List Event}
    (each : ∀ f ∈ fields, ∀ {offset stop v log},
      f.schema.read bytes offset = ⟨log, .ok (v, stop)⟩ → log = [])
    (h : readFields fields bytes offset = ⟨log, .ok (vs, stop)⟩) : log = [] := by
  induction fields generalizing offset vs log with
  | nil =>
    cases h
    rfl
  | cons f fields ih =>
    obtain ⟨w, middle, rest, l, m, head, tail, -, rfl⟩ := readFields_cons_eq_ok_iff.mp h
    have first := each f List.mem_cons_self head
    have second := ih (fun g hg => each g (List.mem_cons_of_mem f hg)) tail
    rw [first, second, List.append_nil]

theorem read_quiet {s : Schema} {bytes : Bytes} {offset stop : Nat} {v : Value} {log : List Event}
    (mapless : s.Everywhere (·.isMap = false))
    (h : s.read bytes offset = ⟨log, .ok (v, stop)⟩) : log = [] := by
  induction s generalizing bytes offset stop v log with
  | int format => exact (read_int_eq_ok_iff.mp h).1
  | float precision order => exact (read_float_eq_ok_iff.mp h).1
  | bool header =>
    obtain ⟨b, -, hcount⟩ := read_bool_eq_ok_iff.mp h
    exact (header.readCount_counts.mp hcount).1
  | slot content shape =>
    obtain ⟨payload, hread, -⟩ := read_slot_eq_ok_iff.mp h
    exact (Slot.image_of_read hread).1
  | constant expected => exact (read_constant_eq_ok_iff.mp h).1
  | record fields each =>
    obtain ⟨vs, -, hread⟩ := read_record_eq_ok_iff.mp h
    exact readFields_quiet (fun f hf => each f hf (mapless.field hf)) hread
  | array item length limit hitem =>
    obtain ⟨vs, -, hread⟩ := read_array_eq_ok_iff.mp h
    obtain ⟨count, start, -, -, walk⟩ := Items.walk_from_count hread
    exact walk_quiet walk (hitem (mapless.part List.mem_cons_self))
  | map kind key value length limit => exact absurd mapless.here (by simp [isMap])
  | option header inner hinner =>
    rcases read_option_eq_ok_iff.mp h with ⟨-, hcount⟩ | ⟨w, middle, -, -, hread⟩
    · exact (header.readCount_counts.mp hcount).1
    · exact hinner (mapless.part List.mem_cons_self) hread
  | union header variants each =>
    obtain ⟨tag, middle, -, hcase⟩ := read_union_eq_ok_iff.mp h
    obtain ⟨w, hw, -, payload, -, hread⟩ := readCase_eq_ok hcase
    exact each w hw (mapless.variant hw) hread
  | framed inner header limit hinner =>
    obtain ⟨outer, payload, middle, -, -, -, -, -, -, hread⟩ := read_framed_eq_ok_iff.mp h
    exact hinner (mapless.part List.mem_cons_self) hread
  | converted conversion inner hinner =>
    obtain ⟨w, -, hread⟩ := read_converted_eq_ok_iff.mp h
    exact hinner (mapless.part List.mem_cons_self) hread

private theorem pairArray_mapless (keys : key.Everywhere (·.isMap = false))
    (values : value.Everywhere (·.isMap = false)) :
    (pairArray key value length limit).Everywhere (·.isMap = false) := by
  intro t ht
  simp only [pairArray, tuple, nodes, List.map_cons, List.map_nil, fieldNodes, List.mem_cons,
    List.mem_append, List.not_mem_nil, or_false] at ht
  rcases ht with rfl | rfl | inKey | inValue
  · rfl
  · rfl
  · exact keys t inKey
  · exact values t inValue

/-- A map is an array of pairs in which the last pair with a key counts.  It passes the same checks
and has the same size; entries are written as the pairs that they are, with the same buffer left
behind, and counted alike unless a sum is no address.  Reading fails where reading the pairs does,
in the same way, and otherwise makes one entry of all pairs with one key.  The reports of keys that
come again follow those of the pairs, of which there are none without another map inside. -/
theorem map_is_pairArray :
    (map kind key value length limit).validate = (pairArray key value length limit).validate ∧
    (map kind key value length limit).size = (pairArray key value length limit).size ∧
    (∀ entries offset buffer,
      ((map kind key value length limit).write (.map entries) offset).run buffer =
        ((pairArray key value length limit).write (.list (entries.map .ofPair)) offset).run
          buffer) ∧
    (∀ entries,
      (map kind key value length limit).encodeSize (.map entries) ≠
        Outcome.abort .additionOverflow →
      (map kind key value length limit).encodeSize (.map entries) =
        (pairArray key value length limit).encodeSize (.list (entries.map .ofPair))) ∧
    ∀ bytes offset,
      (∀ log e, (map kind key value length limit).read bytes offset = ⟨log, .error e⟩ ↔
        (pairArray key value length limit).read bytes offset = ⟨log, .error e⟩) ∧
      ∀ log v stop,
        (pairArray key value length limit).read bytes offset = ⟨log, .ok (v, stop)⟩ →
        ∃ pairs entries indices, v = .list (pairs.map .ofPair) ∧
          (map kind key value length limit).read bytes offset =
            ⟨log ++ indices.map .keyOverwritten, .ok (.map entries, stop)⟩ ∧
          Association.Gathers kind pairs entries ∧ Association.Repeats pairs indices ∧
          (key.Everywhere (·.isMap = false) → value.Everywhere (·.isMap = false) → log = []) := by
  refine ⟨validate_map kind key value length limit, size_map kind key value length limit,
    fun entries offset buffer => ?_, encodeSize_map kind key value length limit,
    fun bytes offset => ⟨fun log e => ?_, fun log v stop h => ?_⟩⟩
  · rw [write_map]
  · rcases read_map_cases kind key value length limit bytes offset with
      ⟨l, f, hpairs, hmap⟩ | ⟨l, pairs, stop, indices, hpairs, hmap, -⟩
    · rw [hpairs, hmap]
    · rw [hpairs, hmap]
      simp
  · rcases read_map_cases kind key value length limit bytes offset with
      ⟨l, f, hpairs, -⟩ | ⟨l, pairs, stop', indices, hpairs, hmap, repeats⟩
    · rw [hpairs] at h
      cases h
    · obtain ⟨rfl, same⟩ := Reading.mk.inj (hpairs.symm.trans h)
      cases same
      exact ⟨pairs, _, indices, rfl, hmap, Association.ofPairs_gathers kind pairs, repeats,
        fun keys values => read_quiet (pairArray_mapless key value length limit keys values) h⟩

theorem map_is_pairArray_bytes :
    (map .insertion (int (.word false .one .big)) (int (.word false .one .big))
        (.counted (.plain (.word false .one .big))) .all).encodeSize
        (.map [(.int 1, .int 30), (.int 2, .int 20)]) =
      (pairArray (int (.word false .one .big)) (int (.word false .one .big))
        (.counted (.plain (.word false .one .big))) .all).encodeSize
        (.list ([(.int 1, .int 30), (.int 2, .int 20)].map .ofPair)) ∧
    (map .insertion (int (.word false .one .big)) (int (.word false .one .big))
        (.counted (.plain (.word false .one .big))) .all).read #[3, 1, 10, 2, 20, 1, 30] 0 =
      ⟨[.keyOverwritten 2], .ok (.map [(.int 1, .int 30), (.int 2, .int 20)], 7)⟩ ∧
    Association.Gathers .insertion
      [(.int 1, .int 10), (.int 2, .int 20), (.int 1, .int 30)]
      [(.int 1, .int 30), (.int 2, .int 20)] := by
  obtain ⟨-, -, -, sized, hread⟩ := map_is_pairArray .insertion (int (.word false .one .big))
    (int (.word false .one .big)) (.counted (.plain (.word false .one .big))) .all
  have known : (map .insertion (int (.word false .one .big)) (int (.word false .one .big))
        (.counted (.plain (.word false .one .big))) .all).read #[3, 1, 10, 2, 20, 1, 30] 0 =
      ⟨[.keyOverwritten 2], .ok (.map [(.int 1, .int 30), (.int 2, .int 20)], 7)⟩ := rfl
  refine ⟨sized _ ?_, known, ?_⟩
  · intro h
    cases h
  · obtain ⟨pairs, entries, indices, same, hmap, gathers, -⟩ :=
      (hread #[3, 1, 10, 2, 20, 1, 30] 0).2 []
        (.list ([(.int 1, .int 10), (.int 2, .int 20), (.int 1, .int 30)].map .ofPair)) 7 rfl
    obtain rfl := ofPairs_injective (Value.list.inj same)
    cases (Reading.mk.inj (hmap.symm.trans known)).2
    exact gathers

end Schema
end ByteSchema
