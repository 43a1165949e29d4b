import ByteSchema.Proofs.FaultlessReading
import ByteSchema.Proofs.ItemLoops
import ByteSchema.Proofs.RaisedErrors

/-!
# Arrays up to the end of the input

Without a count the items of an array go on until the input ends.  Items of one size have to fill
what is left, which is looked at before the first of them is read; other items may fail to get
there, and one that takes no byte would never do so.
-/
namespace ByteSchema

open Bytes Reading

/-- Where the items of a walk stand if all of them take the same number of bytes. -/
theorem Reading.Walk.getElem {α : Type} {item : Nat → Reading (α × Nat)} {step : Nat → Nat → Prop}
    {n offset stop : Nat} {as : List α} {log : List Event}
    (walk : Walk item step offset as stop log)
    (each : ∀ {l x a b}, item a = ⟨l, .ok (x, b)⟩ → b = a + n) (i : Nat) (h : i < as.length) :
    (item (offset + i * n)).outcome = .ok (as[i], offset + (i + 1) * n) := by
  induction walk generalizing i with
  | nil => cases h
  | @cons offset middle stop a as l m head moves tail ih =>
    have next := each head
    cases i with
    | zero => simpa [next] using congrArg outcome head
    | succ i =>
      have later := ih i (Nat.lt_of_succ_lt_succ h)
      have shift (k : Nat) : middle + k * n = offset + (k + 1) * n := by
        rw [next, Nat.succ_mul]
        omega
      rwa [shift, shift] at later

namespace Schema

variable {item : Schema} {limit : Limit} {bytes : Bytes} {offset n : Nat}

private theorem rest_eq (small : bytes.size < addressSpace) (inside : offset ≤ bytes.size) :
    ∃ rest, bytes.rest offset = .ok rest ∧ rest.size = bytes.size - offset := by
  have fits : offset + (bytes.size - offset) ≤ bytes.size := by omega
  have found := window_eq_ok_iff.mpr ⟨fits, Nat.lt_of_le_of_lt fits small, rfl⟩
  exact ⟨_, found, (window_spans found).2.2⟩

private theorem read_of_varying (small : bytes.size < addressSpace) (inside : offset ≤ bytes.size)
    (size : item.size = .ok .varying) :
    (array item .remainder limit).read bytes offset =
      Prod.map Value.list id <$> toEnd (item.read bytes) bytes.size offset := by
  obtain ⟨rest, hrest, -⟩ := rest_eq small inside
  rw [read, Items.read_remainder, hrest, size]
  exact bind_pure_comp _ _

private theorem read_of_fixed_items (small : bytes.size < addressSpace)
    (inside : offset ≤ bytes.size) (size : item.size = .ok (.fixed n)) :
    (array item .remainder limit).read bytes offset =
      Prod.map Value.list id <$>
        if 0 < n ∧ (bytes.size - offset) % n ≠ 0 then
          Reading.fail (.misaligned (bytes.size - offset) n)
        else toEnd (item.read bytes) bytes.size offset := by
  obtain ⟨rest, hrest, hsize⟩ := rest_eq small inside
  rw [read, Items.read_remainder, hrest, size, ← hsize]
  exact bind_pure_comp _ _

/-- Each item takes a byte at least, up to where there is none left, or one item fails or stands
still. -/
private theorem loop_outcome (valid : item.validate = .ok ()) (small : bytes.size < addressSpace)
    (inside : offset ≤ bytes.size) :
    ∃ vs stop log, Walk (item.read bytes) (· < ·) offset vs stop log ∧ stop ≤ bytes.size ∧
      ((stop = bytes.size ∧
          (toEnd (item.read bytes) bytes.size offset).outcome = .ok (vs, bytes.size)) ∨
        (stop < bytes.size ∧ ∃ e, (item.read bytes stop).outcome = .error (.error e) ∧
          (toEnd (item.read bytes) bytes.size offset).outcome = .error (.error e)) ∨
        stop < bytes.size ∧ (∃ v, (item.read bytes stop).outcome = .ok (v, stop)) ∧
          (toEnd (item.read bytes) bytes.size offset).outcome =
            .error (.error (.misaligned (bytes.size - stop) 0))) := by
  obtain ⟨vs, stop, log, x, walk, before, ends⟩ :=
    exists_ends inside fun le h => read_advances h le
  refine ⟨vs, stop, log, walk, before, ?_⟩
  rw [toEnd_of_ends walk before ends]
  cases ends with
  | whole ended => exact .inl ⟨ended, by simp [pure_eq]⟩
  | @failed l e more last =>
    have faultless := read_faultless valid small (Nat.lt_trans more small)
    rw [last] at faultless
    cases e with
    | error e => exact .inr (.inl ⟨more, e, by rw [last], by simp [map_eq, Except.map]⟩)
    | fault f => cases faultless _ rfl
  | @still l v more last =>
    exact .inr (.inr ⟨more, ⟨v, by rw [last]⟩, by simp [Outcome.fail, map_eq, Except.map]⟩)

theorem item_positive (valid : (array item .remainder limit).validate = .ok ())
    (size : item.size = .ok (.fixed n)) : 0 < n := by
  obtain ⟨_, _, h⟩ := Outcome.bind_eq_ok.mp valid
  obtain ⟨_, hsize, h⟩ := Outcome.bind_eq_ok.mp h
  cases hsize.symm.trans size
  cases n with
  | zero => cases h
  | succ n => exact Nat.succ_pos n

/-- Items of one size that fill what is left are read one by one, up to the first that fails. -/
private theorem aligned_outcome (valid : item.validate = .ok ()) (small : bytes.size < addressSpace)
    (inside : offset ≤ bytes.size) (size : item.size = .ok (.fixed n)) (positive : 0 < n)
    (aligned : (bytes.size - offset) % n = 0) :
    (∃ vs, vs.length = (bytes.size - offset) / n ∧
        (∀ i (h : i < vs.length),
          (item.read bytes (offset + i * n)).outcome = .ok (vs[i], offset + (i + 1) * n)) ∧
        (toEnd (item.read bytes) bytes.size offset).outcome = .ok (vs, bytes.size)) ∨
      ∃ i < (bytes.size - offset) / n, ∃ e,
        (∀ j < i, ∃ v,
          (item.read bytes (offset + j * n)).outcome = .ok (v, offset + (j + 1) * n)) ∧
        (item.read bytes (offset + i * n)).outcome = .error (.error e) ∧
        (toEnd (item.read bytes) bytes.size offset).outcome = .error (.error e) := by
  have each {l x a b} (h : item.read bytes a = ⟨l, .ok (x, b)⟩) : b = a + n := read_of_fixed size h
  obtain ⟨vs, stop, log, walk, before, ends⟩ := loop_outcome valid small inside
  have reached : stop = offset + n * vs.length := walk.stop_eq each
  have items (i : Nat) (h : i < vs.length) := walk.getElem each i h
  have whole : bytes.size - offset = n * ((bytes.size - offset) / n) := by
    have := Nat.div_add_mod (bytes.size - offset) n
    omega
  rcases ends with ⟨ended, answer⟩ | ⟨more, e, last, failed⟩ | ⟨more, ⟨v, last⟩, -⟩
  · refine .inl ⟨vs, ?_, items, answer⟩
    have : n * vs.length = n * ((bytes.size - offset) / n) := by omega
    exact Nat.eq_of_mul_eq_mul_left positive this
  · refine .inr ⟨vs.length, ?_, e, fun j hj => ⟨vs[j], items j hj⟩, ?_, failed⟩
    · have : n * vs.length < n * ((bytes.size - offset) / n) := by omega
      exact Nat.lt_of_mul_lt_mul_left this
    · rwa [Nat.mul_comm, ← reached]
  · obtain ⟨l, h⟩ := outcome_eq_ok.mp last
    have := each h
    omega

/-- Neither the loop nor an item of fixed size finds an item that takes no byte. -/
private theorem never_still (valid : item.validate = .ok ()) (small : bytes.size < addressSpace)
    (inside : offset ≤ bytes.size) (size : item.size = .ok (.fixed n)) (positive : 0 < n)
    (left : Nat) :
    ((array item .remainder limit).read bytes offset).outcome ≠
      .error (.error (.misaligned left 0)) := by
  intro h
  rw [read_of_fixed_items small inside size, map_eq] at h
  by_cases aligned : (bytes.size - offset) % n = 0
  · rw [if_neg fun h => h.2 aligned] at h
    rcases aligned_outcome valid small inside size positive aligned with
      ⟨vs, -, -, answer⟩ | ⟨i, -, e, -, last, failed⟩
    · rw [answer] at h
      cases h
    · rw [failed] at h
      cases h
      cases read_aligned size bytes _ _ last
  · rw [if_pos ⟨positive, aligned⟩] at h
    cases h
    exact Nat.lt_irrefl 0 positive

/-- An array without a count takes all that is left.  Items of a fixed size have to fill it, and are
then read at the multiples of that size; no item is ever found to stand still.  Other items are
walked over, each taking a byte at least, until the end, an item that fails, or one that takes no
byte. -/
theorem remainder_array_exact (valid : (array item .remainder limit).validate = .ok ())
    (small : bytes.size < addressSpace) (inside : offset ≤ bytes.size) :
    (∀ n, item.size = .ok (.fixed n) →
      0 < n ∧
      ((bytes.size - offset) % n ≠ 0 →
        (array item .remainder limit).read bytes offset =
          Reading.fail (.misaligned (bytes.size - offset) n)) ∧
      ((bytes.size - offset) % n = 0 →
        (∃ vs, vs.length = (bytes.size - offset) / n ∧
          (∀ i (h : i < vs.length),
            (item.read bytes (offset + i * n)).outcome = .ok (vs[i], offset + (i + 1) * n)) ∧
          ((array item .remainder limit).read bytes offset).outcome =
            .ok (.list vs, bytes.size)) ∨
        ∃ i < (bytes.size - offset) / n, ∃ e,
          (∀ j < i, ∃ v,
            (item.read bytes (offset + j * n)).outcome = .ok (v, offset + (j + 1) * n)) ∧
          (item.read bytes (offset + i * n)).outcome = .error (.error e) ∧
          ((array item .remainder limit).read bytes offset).outcome = .error (.error e)) ∧
      ∀ left, ((array item .remainder limit).read bytes offset).outcome ≠
        .error (.error (.misaligned left 0))) ∧
    (item.size = .ok .varying →
      (∃ vs stop log, Walk (item.read bytes) (· < ·) offset vs stop log ∧
        vs.length ≤ bytes.size - offset ∧ stop ≤ bytes.size ∧
        ((stop = bytes.size ∧
            ((array item .remainder limit).read bytes offset).outcome =
              .ok (.list vs, bytes.size)) ∨
          (stop < bytes.size ∧ ∃ e, (item.read bytes stop).outcome = .error (.error e) ∧
            ((array item .remainder limit).read bytes offset).outcome = .error (.error e)) ∨
          stop < bytes.size ∧ (∃ v, (item.read bytes stop).outcome = .ok (v, stop)) ∧
            ((array item .remainder limit).read bytes offset).outcome =
              .error (.error (.misaligned (bytes.size - stop) 0)))) ∧
      ∀ vs stop log, Walk (item.read bytes) (· < ·) offset vs stop log → stop < bytes.size →
        ∀ v, (item.read bytes stop).outcome = .ok (v, stop) →
          ((array item .remainder limit).read bytes offset).outcome =
            .error (.error (.misaligned (bytes.size - stop) 0))) := by
  have itemValid : item.validate = .ok () := part_valid valid List.mem_cons_self
  refine ⟨fun n size => ?_, fun size => ?_⟩
  · have positive := item_positive valid size
    have loop : (array item .remainder limit).read bytes offset = _ :=
      read_of_fixed_items small inside size
    refine ⟨positive, fun misaligned => ?_, fun aligned => ?_,
      never_still itemValid small inside size positive⟩
    · rw [loop, if_pos ⟨positive, misaligned⟩]
      rfl
    · rw [loop, if_neg fun h => h.2 aligned, map_eq]
      rcases aligned_outcome itemValid small inside size positive aligned with
        ⟨vs, count, items, answer⟩ | ⟨i, early, e, items, last, failed⟩
      · exact .inl ⟨vs, count, items, by simp [answer, Except.map]⟩
      · exact .inr ⟨i, early, e, items, last, by simp [failed, Except.map]⟩
  · have loop : (array item .remainder limit).read bytes offset = _ :=
      read_of_varying small inside size
    rw [loop, map_eq]
    refine ⟨?_, fun vs stop log walk more v last => ?_⟩
    · obtain ⟨vs, stop, log, walk, before, ends⟩ := loop_outcome itemValid small inside
      have few := walk.length_le fun _ _ h => h
      refine ⟨vs, stop, log, walk, by omega, before, ?_⟩
      rcases ends with ⟨ended, answer⟩ | ⟨more, e, last, failed⟩ | ⟨more, last, failed⟩
      · exact .inl ⟨ended, by simp [answer, Except.map]⟩
      · exact .inr (.inl ⟨more, e, last, by simp [failed, Except.map]⟩)
      · exact .inr (.inr ⟨more, last, by simp [failed, Except.map]⟩)
    · obtain ⟨l, h⟩ := outcome_eq_ok.mp last
      rw [toEnd_of_ends walk (Nat.le_of_lt more) (.still more h)]
      simp [Outcome.fail, map_eq, Except.map]

theorem remainder_array_exact_words :
    (array (int (.word false .two .little)) .remainder .all).validate = .ok () ∧
    (array (int (.word false .two .little)) .remainder .all).read #[1, 0, 2, 0, 3] 0 =
      Reading.fail (.misaligned 5 2) ∧
    (∃ vs, vs.length = 2 ∧
      ((array (int (.word false .two .little)) .remainder .all).read #[1, 0, 2, 0, 3] 1).outcome =
        .ok (.list vs, 5)) ∧
    (array (array (int .compact) (.fixed 0) .all) .remainder .all).validate = .ok () ∧
    ((array (array (int .compact) (.fixed 0) .all) .remainder .all).read #[7, 8, 9] 1).outcome =
      .error (.error (.misaligned 2 0)) := by
  have words : (array (int (.word false .two .little)) .remainder .all).validate = .ok () := rfl
  have empties : (array (array (int .compact) (.fixed 0) .all) .remainder .all).validate = .ok () :=
    rfl
  obtain ⟨-, misaligned, -⟩ := (remainder_array_exact words
    (show Array.size #[1, 0, 2, 0, 3] < addressSpace by decide) (Nat.zero_le _)).1 2 rfl
  obtain ⟨-, -, aligned, -⟩ := (remainder_array_exact words
    (show Array.size #[1, 0, 2, 0, 3] < addressSpace by decide)
    (show 1 ≤ Array.size #[1, 0, 2, 0, 3] by decide)).1 2 rfl
  have still := (remainder_array_exact empties
    (show Array.size #[7, 8, 9] < addressSpace by decide)
    (show 1 ≤ Array.size #[7, 8, 9] by decide)).2 rfl
  refine ⟨words, misaligned (by decide), ?_, empties, ?_⟩
  · rcases aligned (by decide) with ⟨vs, count, -, answer⟩ | ⟨i, early, e, -, -, failed⟩
    · exact ⟨vs, count, answer⟩
    · cases failed
  · exact still.2 [] 1 [] (.nil 1) (by decide) (.list []) rfl

end Schema
end ByteSchema
