import ByteSchema.Proofs.ReadInversion
import ByteSchema.Proofs.SchemaImages
import Mathlib.Data.Nat.Digits.Lemmas

/-!
# Compact numbers, and what is none

How far the bytes at an offset ask for another group decides what a reader answers.  They run into
the end of the input, or break off where the last group makes a number, or hold groups that no
number is written as.  The induction is on the groups of the run.
-/
namespace ByteSchema

open Bytes

namespace Compact

/-- Each of the `count` bytes from `offset` on asks for another group. -/
def Continued (bytes : Bytes) (offset count : Nat) : Prop :=
  ∀ i < count, ∃ byte, bytes[offset + i]? = some byte ∧ 128 ≤ byte.toNat

/-- The input ends behind fewer than three groups, each of which asks for another one. -/
structure Cut (bytes : Bytes) (offset count : Nat) : Prop where
  few : count < 3
  left : bytes.size - offset = count
  continued : Continued bytes offset count

/-- Groups that no number is written as. -/
inductive Malformed (bytes : Bytes) (offset : Nat) : Prop where
  /-- A shorter form ends before the zero. -/
  | redundant {count : Nat} (later : 0 < count) (few : count < 3)
      (run : Continued bytes offset count) (zero : bytes[offset + count]? = some 0)
  /-- The third group holds bits beyond the sixteenth. -/
  | excessive {byte : UInt8} (run : Continued bytes offset 2)
      (third : bytes[offset + 2]? = some byte) (last : byte.toNat < 128) (large : 4 ≤ byte.toNat)
  /-- The third group asks for a fourth. -/
  | endless (run : Continued bytes offset 3)

variable {bytes : Bytes} {offset count n : Nat}

private theorem continued_succ : Continued bytes offset (count + 1) ↔
    Continued bytes offset count ∧ ∃ byte, bytes[offset + count]? = some byte ∧ 128 ≤ byte.toNat :=
  Nat.forall_lt_succ_right

/-- Behind a run the reader stands at the next group, with the bits of the run read. -/
private theorem read_of_continued (small : bytes.size < addressSpace) (few : count ≤ 3)
    (run : Continued bytes offset count) :
    ∃ low < 128 ^ count, read bytes offset = readGroups bytes offset (3 - count) count low := by
  induction count with
  | zero => exact ⟨0, by decide, rfl⟩
  | succ count ih =>
    obtain ⟨front, byte, hget, more⟩ := continued_succ.mp run
    obtain ⟨low, bound, step⟩ := ih (by omega) front
    have here : offset + count < bytes.size := (Array.getElem?_eq_some_iff.mp hget).1
    have allowed : 3 - count = 3 - (count + 1) + 1 := by omega
    rw [allowed, readGroups_of_more (by omega) hget more] at step
    refine ⟨_, ?_, step⟩
    have group : byte.toNat % 128 * 128 ^ count ≤ 127 * 128 ^ count :=
      Nat.mul_le_mul_right _ (by omega)
    rw [Nat.pow_succ]
    omega

private theorem continued_inside (run : Continued bytes offset count) (some : 0 < count) :
    offset + count ≤ bytes.size := by
  obtain ⟨byte, hget, _⟩ := run (count - 1) (by omega)
  have := (Array.getElem?_eq_some_iff.mp hget).1
  omega

theorem read_of_cut (small : bytes.size < addressSpace) (start : offset < addressSpace)
    (cut : Cut bytes offset count) :
    read bytes offset = Outcome.fail (.endOfInput (count + 1) offset (bytes.size - offset)) := by
  obtain ⟨few, left, run⟩ := cut
  obtain ⟨low, _, step⟩ := read_of_continued small (by omega) run
  have allowed : 3 - count = 2 - count + 1 := by omega
  rw [step, allowed, readGroups_of_none (by omega) (Array.getElem?_eq_none (by omega))]

theorem read_of_malformed (small : bytes.size < addressSpace)
    (h : Malformed bytes offset) : read bytes offset = Outcome.fail .invalidVarint := by
  cases h with
  | @redundant count later few run zero =>
    obtain ⟨low, _, step⟩ := read_of_continued small (by omega) run
    have here := (Array.getElem?_eq_some_iff.mp zero).1
    have allowed : 3 - count = 2 - count + 1 := by omega
    rw [step, allowed, readGroups_of_last (by omega) zero (by decide), if_pos (.inl ⟨rfl, later⟩)]
  | @excessive byte run third last large =>
    obtain ⟨low, _, step⟩ := read_of_continued small (by omega) run
    have here := (Array.getElem?_eq_some_iff.mp third).1
    rw [step, readGroups_of_last (by omega) third last, if_pos (.inr (by omega))]
  | endless run =>
    obtain ⟨low, _, step⟩ := read_of_continued small (Nat.le_refl 3) run
    exact step

/-- A run goes on for `count` groups or ends at one of them. -/
private theorem run_ends (bytes : Bytes) (offset count : Nat) :
    Continued bytes offset count ∨ ∃ k < count, Continued bytes offset k ∧
      ∀ byte, bytes[offset + k]? = some byte → byte.toNat < 128 := by
  induction count with
  | zero => exact .inl fun i hi => absurd hi (Nat.not_lt_zero i)
  | succ count ih =>
    rcases ih with run | ⟨k, hk, run, stops⟩
    · by_cases more : ∃ byte, bytes[offset + count]? = some byte ∧ 128 ≤ byte.toNat
      · exact .inl (continued_succ.mpr ⟨run, more⟩)
      · refine .inr ⟨count, Nat.lt_succ_self count, run, fun byte hget => ?_⟩
        by_contra high
        exact more ⟨byte, hget, Nat.not_lt.mp high⟩
    · exact .inr ⟨k, Nat.lt_succ_of_lt hk, run, stops⟩

/-- A last group makes a number, unless it is a redundant zero or too large. -/
private theorem read_of_last {byte : UInt8} (small : bytes.size < addressSpace) (few : count < 3)
    (run : Continued bytes offset count) (hget : bytes[offset + count]? = some byte)
    (last : byte.toNat < 128) :
    Malformed bytes offset ∨ ∃ n stop, read bytes offset = .ok (n, stop) := by
  have here := (Array.getElem?_eq_some_iff.mp hget).1
  by_cases zero : byte = 0 ∧ 0 < count
  · exact .inl (.redundant zero.2 few run (zero.1 ▸ hget))
  by_cases large : count = 2 ∧ 4 ≤ byte.toNat
  · obtain ⟨rfl, large⟩ := large
    exact .inl (.excessive run hget last large)
  obtain ⟨low, bound, step⟩ := read_of_continued small (by omega) run
  have fits : low + byte.toNat * 128 ^ count < 65536 := by
    obtain rfl | rfl | rfl : count = 0 ∨ count = 1 ∨ count = 2 := by omega
    all_goals omega
  have allowed : 3 - count = 2 - count + 1 := by omega
  have room : checkedAdd offset (count + 1) = .ok (offset + (count + 1)) :=
    checkedAdd_eq_ok_iff.mpr ⟨by omega, rfl⟩
  rw [allowed, readGroups_of_last (by omega) hget last,
    if_neg (not_or.mpr ⟨zero, Nat.not_le.mpr fits⟩), room] at step
  exact .inr ⟨_, _, step⟩

/-- Every input is a number, cut, or malformed. -/
theorem read_cases (small : bytes.size < addressSpace) (offset : Nat) :
    (∃ n stop, read bytes offset = .ok (n, stop)) ∨ (∃ count, Cut bytes offset count) ∨
      Malformed bytes offset := by
  rcases run_ends bytes offset 3 with run | ⟨count, few, run, stops⟩
  · exact .inr (.inr (.endless run))
  · cases hget : bytes[offset + count]? with
    | none =>
      have size := Array.getElem?_eq_none_iff.mp hget
      have left : bytes.size - offset = count := by
        have := continued_inside run
        omega
      exact .inr (.inl ⟨count, few, left, run⟩)
    | some byte =>
      rcases read_of_last small few run hget (stops byte hget) with malformed | found
      · exact .inr (.inr malformed)
      · exact .inl found

/-- The bits of a 16-bit number are those behind its leading zeros. -/
private theorem bitLength_eq_sub_clz (small : n < 65536) :
    bitLength n = 16 - (BitVec.ofNat 16 n).clz.toNat := by
  have value : (BitVec.ofNat 16 n).toNat = n := by
    rw [BitVec.toNat_ofNat]
    exact Nat.mod_eq_of_lt small
  have upper := BitVec.toNat_lt_two_pow_sub_clz (x := BitVec.ofNat 16 n)
  rw [value, ← bitLength_le_iff] at upper
  by_cases zero : n = 0
  · subst zero
    rfl
  · have some : BitVec.ofNat 16 n ≠ 0#16 := fun h => zero (by simpa [h] using value.symm)
    have lower := BitVec.two_pow_sub_clz_le_toNat_of_ne_zero (by decide) some
    rw [value, ← Nat.not_lt, ← bitLength_le_iff] at lower
    omega

theorem size_eq_of_clz (small : n < 65536) :
    size n = max 1 ((16 - (BitVec.ofNat 16 n).clz.toNat + 6) / 7) := by
  rw [size, bitLength_eq_sub_clz small]

theorem size_le_three (small : n < 65536) : size n ≤ 3 := by
  rw [size_eq_of_clz small]
  omega

/-- The groups hold the digits of the number in base 128. -/
theorem groups_digits (positive : 0 < n) (high : n < 128 ^ count)
    (low : 1 < count → 128 ^ (count - 1) ≤ n) :
    (groups count n).map (·.toNat % 128) = Nat.digits 128 n := by
  induction count, n using groups.induct with
  | case1 n => omega
  | case2 n =>
    have digit : (UInt8.ofNat (n % 128)).toNat % 128 = n := by
      rw [UInt8.toNat_ofNat']
      omega
    rw [groups, List.map_singleton, digit, Nat.digits_of_lt 128 n (by omega) (by omega)]
  | case3 count n ih =>
    have digit : (UInt8.ofNat (n % 128 + 128)).toNat % 128 = n % 128 := by
      rw [UInt8.toNat_ofNat']
      omega
    have least : 128 ^ count * 128 ≤ n := by
      rw [← Nat.pow_succ]
      exact low (by omega)
    have rest : 128 ^ count ≤ n / 128 := (Nat.le_div_iff_mul_le (by decide)).mpr least
    have some : 0 < n / 128 := Nat.lt_of_lt_of_le (Nat.pow_pos (by decide)) rest
    rw [Nat.pow_succ] at high
    rw [groups, List.map_cons, digit, ih some (by omega) fun _ => rest,
      ← Nat.digits_def' (by decide) positive]

/-- Every group but the last one asks for another. -/
theorem groups_continue (count n : Nat) {i : Nat} (inside : i < (groups count n).length) :
    128 ≤ (groups count n)[i].toNat ↔ i + 1 < count := by
  induction count, n using groups.induct generalizing i with
  | case1 n => cases inside
  | case2 n =>
    have only : i = 0 := by simpa [groups] using inside
    subst only
    simp only [groups, List.getElem_cons_zero, UInt8.toNat_ofNat']
    omega
  | case3 count n ih =>
    cases i with
    | zero =>
      simp only [groups, List.getElem_cons_zero, UInt8.toNat_ofNat']
      omega
    | succ i =>
      have fewer : i < (groups (count + 1) (n / 128)).length := by simpa [groups] using inside
      simp only [groups, List.getElem_cons_succ, ih fewer]
      omega

end Compact

namespace Schema

open ByteSchema.Compact (Cut Malformed groups size_pos)

variable {bytes out : Bytes} {offset stop n : Nat} {v : Int}

private theorem encode_compact_eq_ok_iff :
    (int .compact).encode (.int v) = .ok out ↔
      (0 ≤ v ∧ v ≤ 65535) ∧ out = (groups (Compact.size v.toNat) v.toNat).toArray := by
  have sized : (int .compact).Everywhere Sized := by decide
  have image : (int .compact).image (.int v) = IntFormat.image .compact v := rfl
  rw [encode_eq_ok_iff sized, image, IntFormat.image]
  simp only [Outcome.bind_eq_ok, Outcome.pure_eq_ok, IntFormat.checkRange_eq_ok_iff]
  constructor
  · rintro ⟨_, ⟨_, range, rfl⟩, _, rfl⟩
    exact ⟨range, rfl⟩
  · rintro ⟨range, rfl⟩
    have few : Compact.size v.toNat ≤ 3 := Compact.size_le_three (by omega)
    have space : 3 < addressSpace := by decide
    refine ⟨_, ⟨(), range, rfl⟩, ?_, rfl⟩
    rw [Compact.length_groups]
    omega

private theorem encode_compact_nat (range : n ≤ 65535) :
    (int .compact).encode (.int n) = .ok out ↔ out = (groups (Compact.size n) n).toArray := by
  rw [encode_compact_eq_ok_iff, Int.toNat_natCast]
  exact and_iff_right (by omega)

/-- Groups that stand in the input are a stretch of it. -/
private theorem spans_groups_iff (small : bytes.size < addressSpace) :
    Spans bytes offset (groups (Compact.size n) n) stop ∧ stop < addressSpace ↔
      stop ≤ bytes.size ∧ bytes.extract offset stop = (groups (Compact.size n) n).toArray := by
  constructor
  · rintro ⟨spans, _⟩
    refine ⟨spans.inside, ?_⟩
    rw [← spans.content, Array.toArray_toList]
  · rintro ⟨inside, content⟩
    have size : (bytes.extract offset stop).size = Compact.size n := by
      rw [content, List.size_toArray, Compact.length_groups]
    rw [Array.size_extract] at size
    have positive := size_pos n
    have spans : Spans bytes offset (bytes.extract offset stop).toList stop :=
      .extract (by omega) inside (.inr (by omega))
    rw [content] at spans
    exact ⟨spans, by omega⟩

private theorem outcome_compact (bytes : Bytes) (offset : Nat) :
    ((int .compact).read bytes offset).outcome =
      (Compact.read bytes offset).map fun found => (.int found.1, found.2) := by
  rw [read, IntFormat.read]
  cases Compact.read bytes offset with
  | error e => rfl
  | ok found => rfl

private theorem outcome_compact_eq_ok_iff {v : Value} :
    ((int .compact).read bytes offset).outcome = .ok (v, stop) ↔
      ∃ n : Nat, v = .int n ∧ Compact.read bytes offset = .ok (n, stop) := by
  rw [outcome_compact]
  cases Compact.read bytes offset with
  | error e => simp [Except.map]
  | ok found => simp [Except.map, Prod.ext_iff, eq_comm]

private theorem outcome_compact_eq_fail_iff {e : Error} :
    ((int .compact).read bytes offset).outcome = Outcome.fail e ↔
      Compact.read bytes offset = Outcome.fail e := by
  rw [outcome_compact]
  cases Compact.read bytes offset with
  | error e' => simp [Except.map, Outcome.fail]
  | ok found => simp [Except.map, Outcome.fail]

private theorem read_compact_eq_ok_iff {v : Value} (small : bytes.size < addressSpace) :
    ((int .compact).read bytes offset).outcome = .ok (v, stop) ↔
      ∃ n : Nat, v = .int n ∧ n ≤ 65535 ∧ stop ≤ bytes.size ∧
        (int .compact).encode (.int n) = .ok (bytes.extract offset stop) := by
  rw [outcome_compact_eq_ok_iff]
  refine exists_congr fun n => and_congr_right fun _ => ?_
  rw [Compact.read_eq_ok_iff, spans_groups_iff small, Nat.lt_succ_iff]
  exact and_congr_right fun range => and_congr_right fun _ => (encode_compact_nat range).symm

private theorem read_compact_eq_end_iff (small : bytes.size < addressSpace)
    (start : offset < addressSpace) {expected position remaining : Nat} :
    Compact.read bytes offset = Outcome.fail (.endOfInput expected position remaining) ↔
      ∃ i, Cut bytes offset i ∧ expected = i + 1 ∧ position = offset ∧
        remaining = bytes.size - offset := by
  constructor
  · intro h
    rcases Compact.read_cases small offset with ⟨_, _, found⟩ | ⟨i, cut⟩ | malformed
    · cases h.symm.trans found
    · cases h.symm.trans (Compact.read_of_cut small start cut)
      exact ⟨i, cut, rfl, rfl, rfl⟩
    · cases h.symm.trans (Compact.read_of_malformed small malformed)
  · rintro ⟨i, cut, rfl, rfl, rfl⟩
    exact Compact.read_of_cut small start cut

private theorem read_compact_eq_invalid_iff (small : bytes.size < addressSpace)
    (start : offset < addressSpace) :
    Compact.read bytes offset = Outcome.fail .invalidVarint ↔ Malformed bytes offset := by
  refine ⟨fun h => ?_, Compact.read_of_malformed small⟩
  rcases Compact.read_cases small offset with ⟨_, _, found⟩ | ⟨i, cut⟩ | malformed
  · cases h.symm.trans found
  · cases h.symm.trans (Compact.read_of_cut small start cut)
  · exact malformed

private theorem encode_compact_shape (h : (int .compact).encode (.int n) = .ok out) :
    out.size = Compact.size n ∧ 1 ≤ Compact.size n ∧ Compact.size n ≤ 3 ∧
      Compact.size n = max 1 ((16 - (BitVec.ofNat 16 n).clz.toNat + 6) / 7) ∧
      out.toList.map (·.toNat % 128) = (if n = 0 then [0] else Nat.digits 128 n) ∧
      ∀ i (inside : i < out.size), 128 ≤ out[i].toNat ↔ i + 1 < Compact.size n := by
  obtain ⟨range, _⟩ := encode_compact_eq_ok_iff.mp h
  have few : n < 65536 := by omega
  rw [encode_compact_nat (by omega)] at h
  subst h
  refine ⟨Compact.length_groups _ n, size_pos n, Compact.size_le_three few,
    Compact.size_eq_of_clz few, ?_, fun i inside => ?_⟩
  · by_cases zero : n = 0
    · subst zero
      rfl
    · obtain ⟨high, low⟩ := (Compact.size_eq_iff (size_pos n)).mp rfl
      rw [if_neg zero, List.toList_toArray]
      exact Compact.groups_digits (Nat.pos_of_ne_zero zero) high low
  · exact Compact.groups_continue (Compact.size n) n inside

/-- The reader takes exactly what the writer makes of a 16-bit number, and any other input is either
cut or malformed. -/
theorem compact_classified (bytes : Bytes) (offset : Nat) (small : bytes.size < addressSpace)
    (start : offset < addressSpace) :
    (∀ v stop, ((int .compact).read bytes offset).outcome = .ok (v, stop) ↔
      ∃ n : Nat, v = .int n ∧ n ≤ 65535 ∧ stop ≤ bytes.size ∧
        (int .compact).encode (.int n) = .ok (bytes.extract offset stop)) ∧
    (∀ expected position remaining,
      ((int .compact).read bytes offset).outcome =
          Outcome.fail (.endOfInput expected position remaining) ↔
        ∃ i, Cut bytes offset i ∧ expected = i + 1 ∧ position = offset ∧
          remaining = bytes.size - offset) ∧
    (((int .compact).read bytes offset).outcome = Outcome.fail .invalidVarint ↔
      (¬ ∃ v stop, ((int .compact).read bytes offset).outcome = .ok (v, stop)) ∧
        ¬ ∃ i, Cut bytes offset i) ∧
    (((int .compact).read bytes offset).outcome = Outcome.fail .invalidVarint ↔
      Malformed bytes offset) ∧
    (∀ v : Int, (∃ out, (int .compact).encode (.int v) = .ok out) ↔ 0 ≤ v ∧ v ≤ 65535) ∧
    (∀ (n : Nat) out, (int .compact).encode (.int n) = .ok out →
      out.size = Compact.size n ∧ 1 ≤ Compact.size n ∧ Compact.size n ≤ 3 ∧
        Compact.size n = max 1 ((16 - (BitVec.ofNat 16 n).clz.toNat + 6) / 7) ∧
        out.toList.map (·.toNat % 128) = (if n = 0 then [0] else Nat.digits 128 n) ∧
        ∀ i (inside : i < out.size), 128 ≤ out[i].toNat ↔ i + 1 < Compact.size n) := by
  refine ⟨fun _ _ => read_compact_eq_ok_iff small, fun _ _ _ => ?_, ?_, ?_, fun v => ?_,
    fun _ _ => encode_compact_shape⟩
  · rw [outcome_compact_eq_fail_iff, read_compact_eq_end_iff small start]
  · simp only [outcome_compact_eq_fail_iff, outcome_compact_eq_ok_iff]
    constructor
    · intro h
      refine ⟨?_, fun ⟨i, cut⟩ => ?_⟩
      · rintro ⟨v, stop, n, _, found⟩
        cases h.symm.trans found
      · cases h.symm.trans (Compact.read_of_cut small start cut)
    · rintro ⟨none, uncut⟩
      rcases Compact.read_cases small offset with ⟨n, stop, found⟩ | cut | malformed
      · exact absurd ⟨_, stop, n, rfl, found⟩ none
      · exact absurd cut uncut
      · exact Compact.read_of_malformed small malformed
  · rw [outcome_compact_eq_fail_iff, read_compact_eq_invalid_iff small start]
  · simp only [encode_compact_eq_ok_iff, exists_and_left, exists_eq, and_true]

/-- A number, an input that ends within one, and a one spread over three groups. -/
theorem compact_classified_samples :
    ((int .compact).read #[9, 255, 127, 128] 1).outcome = .ok (.int 16383, 3) ∧
    ((int .compact).read #[9, 255, 127, 128] 3).outcome =
      Outcome.fail (.endOfInput 2 3 1) ∧
    ((int .compact).read #[129, 128, 0] 0).outcome = Outcome.fail .invalidVarint ∧
    (∃ out, (int .compact).encode (.int 65535) = .ok out) ∧
    Compact.size 16384 = 3 := by
  obtain ⟨numbers, -, -, -, encodable, shape⟩ :=
    compact_classified #[9, 255, 127, 128] 1 (by decide) (by decide)
  obtain ⟨-, ends, -, -, -, -⟩ := compact_classified #[9, 255, 127, 128] 3 (by decide) (by decide)
  obtain ⟨-, -, -, malformed, -, -⟩ := compact_classified #[129, 128, 0] 0 (by decide) (by decide)
  have broken : Cut #[9, 255, 127, 128] 3 1 :=
    ⟨by decide, rfl, fun i hi => ⟨128, by rw [Nat.lt_one_iff.mp hi]; rfl, by decide⟩⟩
  have padded : Malformed #[129, 128, 0] 0 := by
    refine .redundant (by decide : 0 < 2) (by decide) (fun i hi => ?_) rfl
    obtain rfl | rfl : i = 0 ∨ i = 1 := by omega
    · exact ⟨129, rfl, by decide⟩
    · exact ⟨128, rfl, by decide⟩
  have written : (int .compact).encode (.int (16384 : Nat)) = .ok #[128, 128, 1] := rfl
  exact ⟨(numbers _ _).mpr ⟨16383, rfl, by decide, by decide, rfl⟩,
    (ends _ _ _).mpr ⟨1, broken, rfl, rfl, rfl⟩, malformed.mpr padded,
    (encodable 65535).mpr (by decide), (shape _ _ written).1.symm⟩

end Schema
end ByteSchema
