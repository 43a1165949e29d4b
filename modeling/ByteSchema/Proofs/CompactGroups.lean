import ByteSchema.Number.Compact
import ByteSchema.Proofs.ByteSpans
import Mathlib.Tactic.Ring

/-!
# Compact numbers as groups of seven bits

The reader takes the groups of a number and no other bytes: a group that could have been left out
is refused, and the number of groups follows from the number.  The induction is on the groups that
are still allowed; `low` stands for the bits of those already read.
-/
namespace ByteSchema.Compact

open Bytes

theorem bitLength_le_iff {n k : Nat} : bitLength n ≤ k ↔ n < 2 ^ k := by
  unfold bitLength
  split
  · rename_i h
    simp [h]
  · rename_i h
    rw [Nat.add_one_le_iff, Nat.log2_lt h]

/-- A number has as many groups as it needs, and one at least. -/
theorem size_eq_iff {n count : Nat} (positive : 0 < count) :
    size n = count ↔ n < 128 ^ count ∧ (1 < count → 128 ^ (count - 1) ≤ n) := by
  have power (k : Nat) : 128 ^ k = 2 ^ (7 * k) := by
    rw [Nat.pow_mul]
  have upper : bitLength n ≤ 7 * count ↔ n < 128 ^ count := by
    rw [bitLength_le_iff, power]
  have lower : bitLength n ≤ 7 * (count - 1) ↔ n < 128 ^ (count - 1) := by
    rw [bitLength_le_iff, power]
  unfold size
  constructor
  · intro h
    refine ⟨upper.mp (by omega), fun several => ?_⟩
    have := mt lower.mpr
    omega
  · rintro ⟨high, low⟩
    have := upper.mpr high
    by_cases several : 1 < count
    · have := mt lower.mp (Nat.not_lt.mpr (low several))
      omega
    · omega

@[simp] theorem length_groups (count n : Nat) : (groups count n).length = count := by
  induction count, n using groups.induct with
  | case1 => rfl
  | case2 => rfl
  | case3 count n ih => simp [groups, ih]

theorem size_pos (n : Nat) : 0 < size n := by
  unfold size
  omega

theorem size_mono {m n : Nat} (le : m ≤ n) : size m ≤ size n := by
  have bits : bitLength m ≤ bitLength n :=
    bitLength_le_iff.mpr (Nat.lt_of_le_of_lt le (bitLength_le_iff.mp (Nat.le_refl _)))
  unfold size
  omega

/-- More than one group: the lowest one with the high bit set, then the rest. -/
private theorem groups_succ {count : Nat} (positive : 0 < count) (n : Nat) :
    groups (count + 1) n = UInt8.ofNat (n % 128 + 128) :: groups count (n / 128) := by
  obtain ⟨count, rfl⟩ : ∃ k, count = k + 1 := ⟨count - 1, by omega⟩
  rfl

theorem readGroups_succ_eq_ok_iff {bytes : Bytes} {offset left i low n stop : Nat} :
    readGroups bytes offset (left + 1) i low = .ok (n, stop) ↔
      ∃ byte : UInt8, bytes[offset + i]? = some byte ∧ offset + i < addressSpace ∧
        ((byte.toNat < 128 ∧ (byte = 0 → i = 0) ∧ n = low + byte.toNat * 128 ^ i ∧ n < 65536 ∧
            stop = offset + (i + 1) ∧ stop < addressSpace) ∨
          (128 ≤ byte.toNat ∧
            readGroups bytes offset left (i + 1) (low + byte.toNat % 128 * 128 ^ i) =
              .ok (n, stop))) := by
  have shift (b : Nat) : b <<< (7 * i) = b * 128 ^ i := by
    rw [Nat.shiftLeft_eq, Nat.pow_mul]
  rw [readGroups, Outcome.bind_eq_ok]
  simp only [checkedAdd_eq_ok_iff, shift]
  constructor
  · rintro ⟨_, ⟨inSpace, rfl⟩, h⟩
    cases hget : bytes[offset + i]? with
    | none => simp [hget] at h
    | some byte =>
      refine ⟨byte, rfl, inSpace, ?_⟩
      simp only [hget] at h
      by_cases more : 128 ≤ byte.toNat
      · rw [if_pos more] at h
        exact .inr ⟨more, h⟩
      · rw [if_neg more] at h
        by_cases redundant : byte = 0 ∧ 0 < i
        · simp [redundant] at h
        · rw [if_neg redundant, Nat.mod_eq_of_lt (Nat.not_le.mp more)] at h
          by_cases large : 65536 ≤ low + byte.toNat * 128 ^ i
          · simp [large] at h
          · rw [if_neg large, Outcome.bind_eq_ok] at h
            obtain ⟨_, hsum, h⟩ := h
            obtain ⟨small, rfl⟩ := checkedAdd_eq_ok_iff.mp hsum
            cases h
            refine .inl ⟨Nat.not_le.mp more, fun zero => ?_, rfl, Nat.not_le.mp large, rfl, small⟩
            by_contra positive
            exact redundant ⟨zero, Nat.pos_of_ne_zero positive⟩
  · rintro ⟨byte, hget, inSpace, h⟩
    refine ⟨_, ⟨inSpace, rfl⟩, ?_⟩
    simp only [hget]
    rcases h with ⟨last, needed, rfl, small, rfl, room⟩ | ⟨more, h⟩
    · rw [if_neg (Nat.not_le.mpr last), Nat.mod_eq_of_lt last,
        if_neg (fun h => Nat.ne_of_gt h.2 (needed h.1)), if_neg (Nat.not_le.mpr small)]
      exact Outcome.bind_eq_ok.mpr ⟨_, checkedAdd_eq_ok_iff.mpr ⟨room, rfl⟩, rfl⟩
    · rw [if_pos more]
      exact h

/-- A group with the high bit set is followed by the next one. -/
theorem readGroups_of_more {bytes : Bytes} {offset left i low : Nat} {byte : UInt8}
    (here : offset + i < addressSpace) (hget : bytes[offset + i]? = some byte)
    (more : 128 ≤ byte.toNat) :
    readGroups bytes offset (left + 1) i low =
      readGroups bytes offset left (i + 1) (low + byte.toNat % 128 * 128 ^ i) := by
  have shift : (byte.toNat % 128) <<< (7 * i) = byte.toNat % 128 * 128 ^ i := by
    rw [Nat.shiftLeft_eq, Nat.pow_mul]
  rw [readGroups, checkedAdd_eq_ok_iff.mpr ⟨here, rfl⟩]
  simp only [bind, Except.bind, hget, if_pos more, shift]

theorem readGroups_of_none {bytes : Bytes} {offset left i low : Nat}
    (here : offset + i < addressSpace) (hget : bytes[offset + i]? = none) :
    readGroups bytes offset (left + 1) i low =
      Outcome.fail (.endOfInput (i + 1) offset (bytes.size - offset)) := by
  rw [readGroups, checkedAdd_eq_ok_iff.mpr ⟨here, rfl⟩]
  simp only [bind, Except.bind, hget]

/-- A group without the high bit is the last one. -/
theorem readGroups_of_last {bytes : Bytes} {offset left i low : Nat} {byte : UInt8}
    (here : offset + i < addressSpace) (hget : bytes[offset + i]? = some byte)
    (last : byte.toNat < 128) :
    readGroups bytes offset (left + 1) i low =
      if (byte = 0 ∧ 0 < i) ∨ 65536 ≤ low + byte.toNat * 128 ^ i then Outcome.fail .invalidVarint
      else do return (low + byte.toNat * 128 ^ i, ← checkedAdd offset (i + 1)) := by
  have shift : (byte.toNat % 128) <<< (7 * i) = byte.toNat * 128 ^ i := by
    rw [Nat.shiftLeft_eq, Nat.pow_mul, Nat.mod_eq_of_lt last]
  rw [readGroups, checkedAdd_eq_ok_iff.mpr ⟨here, rfl⟩]
  simp only [bind, Except.bind, hget, if_neg (Nat.not_le.mpr last), shift, ite_or]

/-- The groups from `i` on are read as a number `m` that has no fewer groups. -/
private theorem readGroups_eq_ok_iff {bytes : Bytes} {offset left i low n stop : Nat} :
    readGroups bytes offset left i low = .ok (n, stop) ↔
      ∃ count m, 0 < count ∧ count ≤ left ∧ m < 128 ^ count ∧
        (1 < i + count → 128 ^ (count - 1) ≤ m) ∧ n = low + m * 128 ^ i ∧ n < 65536 ∧
        Spans bytes (offset + i) (groups count m) stop ∧ stop < addressSpace := by
  induction left generalizing i low with
  | zero =>
    simp only [readGroups, Outcome.fail_ne_ok, false_iff, not_exists]
    intro count m h
    omega
  | succ left ih =>
    rw [readGroups_succ_eq_ok_iff]
    constructor
    · rintro ⟨byte, hget, inSpace, ⟨last, needed, hn, small, rfl, room⟩ | ⟨more, h⟩⟩
      · refine ⟨1, byte.toNat, by omega, by omega, by omega, fun later => ?_, hn, small, ?_, room⟩
        · by_contra zero
          have : byte = 0 := UInt8.toNat_inj.mp (by rw [UInt8.toNat_zero]; omega)
          have := needed this
          omega
        · rw [groups, Nat.mod_eq_of_lt last, UInt8.ofNat_toNat]
          exact .singleton hget room
      · obtain ⟨count, m, positive, fewer, high, low', hn, small, spans, room⟩ := ih.mp h
        refine ⟨count + 1, byte.toNat % 128 + 128 * m, by omega, by omega, ?_, fun _ => ?_, ?_,
          small, ?_, room⟩
        · rw [Nat.pow_succ]
          omega
        · have := low' (by omega)
          obtain ⟨count, rfl⟩ : ∃ k, count = k + 1 := ⟨count - 1, by omega⟩
          simp only [Nat.add_sub_cancel] at this ⊢
          rw [Nat.pow_succ]
          omega
        · rw [hn]
          ring
        · have byteEq : UInt8.ofNat ((byte.toNat % 128 + 128 * m) % 128 + 128) = byte := by
            apply UInt8.toNat_inj.mp
            have := byte.toNat_lt
            rw [UInt8.toNat_ofNat']
            omega
          have rest : (byte.toNat % 128 + 128 * m) / 128 = m := by omega
          rw [groups_succ positive, byteEq, rest]
          exact .cons hget spans room
    · rintro ⟨count, m, positive, fewer, high, low', hn, small, spans, room⟩
      have start := spans.le
      by_cases single : count = 1
      · subst single
        rw [groups] at spans
        have last : (UInt8.ofNat (m % 128)).toNat = m := by
          rw [UInt8.toNat_ofNat']
          omega
        refine ⟨_, spans.getElem?, by omega, .inl ⟨by omega, fun zero => ?_, ?_, small, ?_, room⟩⟩
        · by_contra later
          have := low' (by omega)
          rw [zero, UInt8.toNat_zero] at last
          omega
        · rw [last]
          exact hn
        · have := spans.stop_eq
          rw [List.length_singleton] at this
          omega
      · obtain ⟨count, rfl⟩ : ∃ k, count = k + 1 := ⟨count - 1, by omega⟩
        rw [groups_succ (by omega)] at spans
        have first : (UInt8.ofNat (m % 128 + 128)).toNat = m % 128 + 128 := by
          rw [UInt8.toNat_ofNat']
          omega
        refine ⟨_, spans.getElem?, by omega, .inr ⟨by omega, ih.mpr ?_⟩⟩
        refine ⟨count, m / 128, by omega, by omega, ?_, fun _ => ?_, ?_, small, spans.tail, room⟩
        · rw [Nat.pow_succ] at high
          omega
        · have := low' (by omega)
          obtain ⟨count, rfl⟩ : ∃ k, count = k + 1 := ⟨count - 1, by omega⟩
          simp only [Nat.add_sub_cancel, Nat.pow_succ] at this ⊢
          omega
        · have split : m = m % 128 + 128 * (m / 128) := by omega
          have groupEq : (m % 128 + 128) % 128 = m % 128 := by omega
          rw [first, groupEq, hn]
          conv_lhs => rw [split]
          ring

/-- The reader answers a number exactly where the number's own groups stand. -/
theorem read_eq_ok_iff {bytes : Bytes} {offset n stop : Nat} :
    read bytes offset = .ok (n, stop) ↔
      n < 65536 ∧ Spans bytes offset (groups (size n) n) stop ∧ stop < addressSpace := by
  rw [read, readGroups_eq_ok_iff]
  constructor
  · rintro ⟨count, m, positive, _, high, low, hn, small, spans, room⟩
    have same : n = m := by simpa using hn
    subst same
    have exact : size n = count := (size_eq_iff positive).mpr ⟨high, fun h => low (by omega)⟩
    rw [exact]
    exact ⟨small, spans, room⟩
  · rintro ⟨small, spans, room⟩
    obtain ⟨high, low⟩ := (size_eq_iff (size_pos n)).mp rfl
    have three : size n ≤ 3 := by
      by_contra more
      have := low (by omega)
      have : 128 ^ 3 ≤ 128 ^ (size n - 1) := Nat.pow_le_pow_right (by decide) (by omega)
      omega
    exact ⟨size n, n, size_pos n, three, high, fun h => low (by omega), by simp, small, spans, room⟩

end ByteSchema.Compact
