import ByteSchema.Schema.Read
import ByteSchema.Proofs.ItemImages

/-!
# What a successful read was made of

One equivalence for each kind of schema: it answers a value exactly when its parts were read, one
behind the other, and reported the events together.  Leaves are read where their image stands.
-/
namespace ByteSchema.Schema

open Bytes Reading

-- The three walks are opened in this module; all others go by the equivalences below.
attribute [local simp] read readFields readCase

variable {bytes : Bytes} {offset stop : Nat} {v : Value} {log : List Event}

theorem read_int_eq_ok_iff {format : IntFormat} :
    (int format).read bytes offset = ⟨log, .ok (v, stop)⟩ ↔
      log = [] ∧ ∃ x, v = .int x ∧ ∃ bs, format.image x = .ok bs ∧ Spans bytes offset bs stop ∧
        stop < addressSpace := by
  rw [read]
  simp only [bind_eq_ok, lift_eq_ok, pure_eq_ok, Prod.exists, Prod.mk.injEq,
    IntFormat.read_eq_ok_iff]
  constructor
  · rintro ⟨_, x, _, _, ⟨found, rfl⟩, ⟨⟨rfl, rfl⟩, rfl⟩, rfl⟩
    exact ⟨rfl, x, rfl, found⟩
  · rintro ⟨rfl, x, rfl, found⟩
    exact ⟨[], x, stop, [], ⟨found, rfl⟩, ⟨⟨rfl, rfl⟩, rfl⟩, rfl⟩

theorem read_float_eq_ok_iff {precision : Precision} {order : ByteOrder} :
    (float precision order).read bytes offset = ⟨log, .ok (v, stop)⟩ ↔
      log = [] ∧ ∃ x, v = .float x ∧ x.precision = precision ∧
        ∃ bs, x.image precision order = .ok bs ∧ Spans bytes offset bs stop ∧
          stop < addressSpace := by
  rw [read]
  simp only [bind_eq_ok, lift_eq_ok, pure_eq_ok, Prod.exists, Prod.mk.injEq,
    Floating.read_eq_ok_iff]
  constructor
  · rintro ⟨_, x, _, _, ⟨found, rfl⟩, ⟨⟨rfl, rfl⟩, rfl⟩, rfl⟩
    exact ⟨rfl, x, rfl, found⟩
  · rintro ⟨rfl, x, rfl, found⟩
    exact ⟨[], x, stop, [], ⟨found, rfl⟩, ⟨⟨rfl, rfl⟩, rfl⟩, rfl⟩

theorem read_bool_eq_ok_iff {header : Header} :
    (bool header).read bytes offset = ⟨log, .ok (v, stop)⟩ ↔
      ∃ b, v = .bool b ∧ header.readCount bytes offset = ⟨log, .ok (b.toNat, stop)⟩ := by
  rw [read, readBool]
  cases hcount : header.readCount bytes offset with
  | mk events outcome =>
    cases outcome with
    | error e =>
      constructor
      · intro h
        split at h <;> simp_all [Outcome.fail]
      · rintro ⟨b, _, h⟩
        cases h
    | ok r =>
      obtain ⟨n, middle⟩ := r
      cases n with
      | zero =>
        constructor
        · intro h
          cases h
          exact ⟨false, rfl, rfl⟩
        · rintro ⟨b, rfl, h⟩
          cases b with
          | false =>
            cases h
            rfl
          | true => cases h
      | succ n =>
        cases n with
        | zero =>
          constructor
          · intro h
            cases h
            exact ⟨true, rfl, rfl⟩
          · rintro ⟨b, rfl, h⟩
            cases b with
            | false => cases h
            | true =>
              cases h
              rfl
        | succ n =>
          constructor
          · intro h
            cases h
          · rintro ⟨b, _, h⟩
            cases b <;> cases h

theorem read_slot_eq_ok_iff {content : Content} {shape : Slot} :
    (slot content shape).read bytes offset = ⟨log, .ok (v, stop)⟩ ↔
      ∃ payload, shape.read bytes offset = ⟨log, .ok (payload, stop)⟩ ∧
        content.ofBytes payload = .ok v := by
  rw [read]
  simp only [bind_eq_ok, lift_eq_ok, pure_eq_ok, Prod.exists, Prod.mk.injEq]
  constructor
  · rintro ⟨_, payload, _, _, hread, ⟨_, _, _, ⟨hvalue, rfl⟩, ⟨⟨rfl, rfl⟩, rfl⟩, rfl⟩, rfl⟩
    exact ⟨payload, by simpa using hread, hvalue⟩
  · rintro ⟨payload, hread, hvalue⟩
    exact ⟨log, payload, stop, [], hread,
      ⟨[], v, [], ⟨hvalue, rfl⟩, ⟨⟨rfl, rfl⟩, rfl⟩, rfl⟩, by simp⟩

theorem read_constant_eq_ok_iff {expected : List UInt8} :
    (constant expected).read bytes offset = ⟨log, .ok (v, stop)⟩ ↔
      log = [] ∧ v = .unit ∧ Spans bytes offset expected stop ∧ stop < addressSpace := by
  rw [read]
  simp only [bind_eq_ok, lift_eq_ok]
  constructor
  · rintro ⟨_, found, _, ⟨hwindow, rfl⟩, h, rfl⟩
    obtain ⟨spans, small, size⟩ := window_spans hwindow
    by_cases same : found.toList = expected
    · rw [if_pos same] at h
      simp only [bind_eq_ok, lift_eq_ok, pure_eq_ok, Prod.mk.injEq] at h
      obtain ⟨_, _, _, ⟨hsum, rfl⟩, ⟨⟨rfl, rfl⟩, rfl⟩, rfl⟩ := h
      obtain ⟨-, rfl⟩ := checkedAdd_eq_ok_iff.mp hsum
      subst same
      exact ⟨rfl, rfl, spans, small⟩
    · rw [if_neg same] at h
      exact absurd h fail_ne_ok
  · rintro ⟨rfl, rfl, spans, small⟩
    have total := spans.stop_eq
    refine ⟨[], _, [], ⟨spans.window small, rfl⟩, ?_, rfl⟩
    rw [if_pos rfl]
    simp only [bind_eq_ok, lift_eq_ok, pure_eq_ok]
    exact ⟨[], stop, [], ⟨checkedAdd_eq_ok_iff.mpr ⟨total ▸ small, total⟩, rfl⟩, ⟨rfl, rfl⟩, rfl⟩

theorem read_record_eq_ok_iff {fields : List (Field Schema)} :
    (record fields).read bytes offset = ⟨log, .ok (v, stop)⟩ ↔
      ∃ vs, v = .list vs ∧ readFields fields bytes offset = ⟨log, .ok (vs, stop)⟩ := by
  rw [read]
  simp only [bind_eq_ok, pure_eq_ok, Prod.exists, Prod.mk.injEq]
  constructor
  · rintro ⟨_, vs, _, _, hread, ⟨⟨rfl, rfl⟩, rfl⟩, rfl⟩
    exact ⟨vs, rfl, by simpa using hread⟩
  · rintro ⟨vs, rfl, hread⟩
    exact ⟨log, vs, stop, [], hread, ⟨⟨rfl, rfl⟩, rfl⟩, by simp⟩

theorem reportField_outcome (name : Option String) (offset : Nat) (x : Reading (Value × Nat)) :
    (reportField name offset x).outcome = x.outcome := by
  cases name with
  | none => rfl
  | some name =>
    obtain ⟨events, outcome⟩ := x
    cases outcome with
    | ok r => rfl
    | error e => cases e <;> rfl

/-- A report is made of failures only. -/
theorem reportField_eq_ok_iff {name : Option String} {x : Reading (Value × Nat)} :
    reportField name offset x = ⟨log, .ok (v, stop)⟩ ↔ x = ⟨log, .ok (v, stop)⟩ := by
  cases name with
  | none => rfl
  | some name =>
    obtain ⟨events, outcome⟩ := x
    cases outcome with
    | ok r => rfl
    | error e => cases e <;> simp [reportField, reporting]

theorem readFields_cons_eq_ok_iff {f : Field Schema} {fields : List (Field Schema)}
    {vs : List Value} :
    readFields (f :: fields) bytes offset = ⟨log, .ok (vs, stop)⟩ ↔
      ∃ v middle rest l m, f.schema.read bytes offset = ⟨l, .ok (v, middle)⟩ ∧
        readFields fields bytes middle = ⟨m, .ok (rest, stop)⟩ ∧ vs = v :: rest ∧
        log = l ++ m := by
  rw [readFields]
  simp only [bind_eq_ok, pure_eq_ok, Prod.exists, Prod.mk.injEq, reportField_eq_ok_iff]
  constructor
  · rintro ⟨l, v, middle, _, head, ⟨m, rest, _, _, tail, ⟨⟨rfl, rfl⟩, rfl⟩, rfl⟩, rfl⟩
    exact ⟨v, middle, rest, l, m, head, tail, rfl, by simp⟩
  · rintro ⟨v, middle, rest, l, m, head, tail, rfl, rfl⟩
    exact ⟨l, v, middle, m, head, ⟨m, rest, stop, [], tail, ⟨⟨rfl, rfl⟩, rfl⟩, by simp⟩, rfl⟩

theorem read_array_eq_ok_iff {item : Schema} {length : Length} {limit : Limit} :
    (array item length limit).read bytes offset = ⟨log, .ok (v, stop)⟩ ↔
      ∃ vs, v = .list vs ∧
        Items.read length limit item.size (item.read bytes) bytes offset =
          ⟨log, .ok (vs, stop)⟩ := by
  rw [read]
  simp only [bind_eq_ok, pure_eq_ok, Prod.exists, Prod.mk.injEq]
  constructor
  · rintro ⟨_, vs, _, _, hread, ⟨⟨rfl, rfl⟩, rfl⟩, rfl⟩
    exact ⟨vs, rfl, by simpa using hread⟩
  · rintro ⟨vs, rfl, hread⟩
    exact ⟨log, vs, stop, [], hread, ⟨⟨rfl, rfl⟩, rfl⟩, by simp⟩

/-- A key and the value behind it. -/
def readPair (key value : Schema) (bytes : Bytes) (offset : Nat) :
    Reading ((Value × Value) × Nat) := do
  let (k, middle) ← key.read bytes offset
  let (v, stop) ← value.read bytes middle
  return ((k, v), stop)

theorem readPair_eq_ok_iff {key value : Schema} {e : Value × Value} :
    readPair key value bytes offset = ⟨log, .ok (e, stop)⟩ ↔
      ∃ middle l m, key.read bytes offset = ⟨l, .ok (e.1, middle)⟩ ∧
        value.read bytes middle = ⟨m, .ok (e.2, stop)⟩ ∧ log = l ++ m := by
  obtain ⟨k, v⟩ := e
  simp only [readPair, bind_eq_ok, pure_eq_ok, Prod.exists, Prod.mk.injEq]
  constructor
  · rintro ⟨l, _, middle, _, hkey, ⟨m, _, _, _, hvalue, ⟨⟨⟨rfl, rfl⟩, rfl⟩, rfl⟩, rfl⟩, rfl⟩
    exact ⟨middle, l, m, hkey, hvalue, by simp⟩
  · rintro ⟨middle, l, m, hkey, hvalue, rfl⟩
    exact ⟨l, k, middle, m, hkey, ⟨m, v, stop, [], hvalue, ⟨⟨⟨rfl, rfl⟩, rfl⟩, rfl⟩, by simp⟩, rfl⟩

theorem read_map_eq_ok_iff {kind : MapKind} {key value : Schema} {length : Length}
    {limit : Limit} :
    (map kind key value length limit).read bytes offset = ⟨log, .ok (v, stop)⟩ ↔
      ∃ pairs entries l m, v = .map entries ∧
        Items.read length limit (Items.pairSize key.size value.size) (readPair key value bytes)
          bytes offset = ⟨l, .ok (pairs, stop)⟩ ∧
        Association.gather kind pairs = ⟨m, .ok entries⟩ ∧ log = l ++ m := by
  rw [read]
  change Items.read length limit (Items.pairSize key.size value.size) (readPair key value bytes)
    bytes offset >>= _ = _ ↔ _
  simp only [bind_eq_ok, pure_eq_ok, Prod.exists, Prod.mk.injEq]
  constructor
  · rintro ⟨l, pairs, _, _, hread, ⟨m, entries, _, hgather, ⟨⟨rfl, rfl⟩, rfl⟩, rfl⟩, rfl⟩
    exact ⟨pairs, entries, l, m, rfl, hread, hgather, by simp⟩
  · rintro ⟨pairs, entries, l, m, rfl, hread, hgather, rfl⟩
    exact ⟨l, pairs, stop, m, hread, ⟨m, entries, [], hgather, ⟨⟨rfl, rfl⟩, rfl⟩, by simp⟩, rfl⟩

theorem read_option_eq_ok_iff {header : Header} {inner : Schema} :
    (option header inner).read bytes offset = ⟨log, .ok (v, stop)⟩ ↔
      (v = .absent ∧ header.readCount bytes offset = ⟨log, .ok (0, stop)⟩) ∨
        ∃ w middle, v = .present w ∧ header.readCount bytes offset = ⟨[], .ok (1, middle)⟩ ∧
          inner.read bytes middle = ⟨log, .ok (w, stop)⟩ := by
  rw [read, bind_eq_ok]
  constructor
  · rintro ⟨l, ⟨tag, middle⟩, m, hcount, h, rfl⟩
    obtain ⟨rfl, -⟩ := header.readCount_counts.mp hcount
    rw [List.nil_append]
    match tag with
    | 0 =>
      obtain ⟨heq, rfl⟩ := pure_eq_ok.mp h
      cases heq
      exact .inl ⟨rfl, hcount⟩
    | 1 =>
      obtain ⟨l, ⟨w, stop⟩, m, hread, hpure, rfl⟩ := bind_eq_ok.mp h
      obtain ⟨heq, rfl⟩ := pure_eq_ok.mp hpure
      cases heq
      rw [List.append_nil]
      exact .inr ⟨w, middle, rfl, hcount, hread⟩
    | tag + 2 => exact absurd h fail_ne_ok
  · rintro (⟨rfl, hcount⟩ | ⟨w, middle, rfl, hcount, hread⟩)
    · exact ⟨log, _, [], hcount, rfl, by simp⟩
    · refine ⟨[], _, log, hcount, ?_, rfl⟩
      exact bind_eq_ok.mpr ⟨log, _, [], hread, rfl, by simp⟩

theorem read_union_eq_ok_iff {header : Header} {variants : List (Variant Schema)} :
    (union header variants).read bytes offset = ⟨log, .ok (v, stop)⟩ ↔
      ∃ tag middle, header.readCount bytes offset = ⟨[], .ok (tag, middle)⟩ ∧
        readCase tag variants bytes middle = ⟨log, .ok (v, stop)⟩ := by
  rw [read, bind_eq_ok]
  constructor
  · rintro ⟨_, ⟨tag, middle⟩, m, hcount, h, rfl⟩
    obtain ⟨rfl, -⟩ := header.readCount_counts.mp hcount
    exact ⟨tag, middle, hcount, h⟩
  · rintro ⟨tag, middle, hcount, h⟩
    exact ⟨[], _, log, hcount, h, rfl⟩

private theorem bind_case_eq_ok_iff {label : String} {x : Reading (Value × Nat)} :
    (do
      let (payload, stop) ← x
      return (Value.case label payload, stop)) = (⟨log, .ok (v, stop)⟩ : Reading (Value × Nat)) ↔
      ∃ payload, v = .case label payload ∧ x = ⟨log, .ok (payload, stop)⟩ := by
  simp only [bind_eq_ok, pure_eq_ok, Prod.exists, Prod.mk.injEq]
  constructor
  · rintro ⟨_, payload, _, _, hread, ⟨⟨rfl, rfl⟩, rfl⟩, rfl⟩
    exact ⟨payload, rfl, by simpa using hread⟩
  · rintro ⟨payload, rfl, hread⟩
    exact ⟨log, payload, stop, [], hread, ⟨⟨rfl, rfl⟩, rfl⟩, by simp⟩

theorem readCase_cons_eq_ok_iff {tag : Nat} {w : Variant Schema}
    {variants : List (Variant Schema)} :
    readCase tag (w :: variants) bytes offset = ⟨log, .ok (v, stop)⟩ ↔
      (w.tag = tag ∧ ∃ payload, v = .case w.label payload ∧
          w.schema.read bytes offset = ⟨log, .ok (payload, stop)⟩) ∨
        (w.tag ≠ tag ∧ readCase tag variants bytes offset = ⟨log, .ok (v, stop)⟩) := by
  rw [readCase]
  by_cases same : w.tag = tag
  · rw [if_pos same, bind_case_eq_ok_iff]
    simp only [same, true_and, ne_eq, not_true_eq_false, false_and, or_false]
  · rw [if_neg same]
    simp only [same, false_and, ne_eq, not_false_eq_true, true_and, false_or]

theorem readCase_nil_ne_ok {tag : Nat} :
    readCase tag [] bytes offset ≠ ⟨log, .ok (v, stop)⟩ := by
  intro h
  obtain ⟨_, _, _, _, h, _⟩ := bind_eq_ok.mp h
  exact absurd h fail_ne_ok

/-- A case that was read is that of a variant with the tag. -/
theorem readCase_eq_ok {tag : Nat} {variants : List (Variant Schema)}
    (h : readCase tag variants bytes offset = ⟨log, .ok (v, stop)⟩) :
    ∃ w ∈ variants, w.tag = tag ∧ ∃ payload, v = .case w.label payload ∧
      w.schema.read bytes offset = ⟨log, .ok (payload, stop)⟩ := by
  induction variants with
  | nil => exact absurd h readCase_nil_ne_ok
  | cons w variants ih =>
    rcases readCase_cons_eq_ok_iff.mp h with ⟨same, found⟩ | ⟨-, h⟩
    · exact ⟨w, List.mem_cons_self, same, found⟩
    · obtain ⟨u, hu, found⟩ := ih h
      exact ⟨u, List.mem_cons_of_mem w hu, found⟩

/-- Where no tag stands twice, each variant is read by its tag. -/
theorem readCase_of_mem {variants : List (Variant Schema)} {w : Variant Schema} {payload : Value}
    (distinct : (variants.map (·.tag)).Nodup) (hw : w ∈ variants)
    (h : w.schema.read bytes offset = ⟨log, .ok (payload, stop)⟩) :
    readCase w.tag variants bytes offset = ⟨log, .ok (.case w.label payload, stop)⟩ := by
  induction variants with
  | nil => cases hw
  | cons u variants ih =>
    obtain ⟨fresh, distinct⟩ := List.nodup_cons.mp distinct
    rw [readCase_cons_eq_ok_iff]
    cases hw with
    | head => exact .inl ⟨rfl, payload, rfl, h⟩
    | tail _ hw =>
      have other : u.tag ≠ w.tag := fun same => fresh (List.mem_map.mpr ⟨w, hw, same.symm⟩)
      exact .inr ⟨other, ih distinct hw⟩

theorem read_framed_eq_ok_iff {inner : Schema} {header : Header} {limit : Limit} :
    (framed inner header limit).read bytes offset = ⟨log, .ok (v, stop)⟩ ↔
      ∃ outer payload middle, limit.contains payload.length = true ∧
        header.Admits payload.length ∧ header.image payload.length = .ok outer ∧
        Spans bytes offset outer middle ∧ Spans bytes middle payload stop ∧
        stop < addressSpace ∧ inner.read payload.toArray 0 = ⟨log, .ok (v, payload.length)⟩ :=
  Frame.read_eq_ok_iff header.readCount_counts

theorem read_converted_eq_ok_iff {conversion : Conversion} {inner : Schema} :
    (converted conversion inner).read bytes offset = ⟨log, .ok (v, stop)⟩ ↔
      ∃ w, v = conversion.load w ∧ inner.read bytes offset = ⟨log, .ok (w, stop)⟩ := by
  rw [read]
  simp only [bind_eq_ok, pure_eq_ok, Prod.exists, Prod.mk.injEq]
  constructor
  · rintro ⟨_, w, _, _, hread, ⟨⟨rfl, rfl⟩, rfl⟩, rfl⟩
    exact ⟨w, rfl, by simpa using hread⟩
  · rintro ⟨w, rfl, hread⟩
    exact ⟨log, w, stop, [], hread, ⟨⟨rfl, rfl⟩, rfl⟩, by simp⟩

end ByteSchema.Schema
