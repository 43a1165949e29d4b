import ByteSchema.Proofs.Floating.Values

/-!
# Rounding to the nearest number

What is rounded is put between two multiples of a unit, which is the spacing of the numbers around
it; numbers of a smaller spacing lie below all that is rounded with this unit.  So the nearest
multiple is the nearest number, and of two that are as near it is the even one.
-/
namespace ByteSchema

section HalfEven

variable {a d k : Nat}

private theorem roundHalfEven_cases (a d : Nat) :
    (roundHalfEven a d = a / d ∧ (2 * (a % d) < d ∨ 2 * (a % d) = d ∧ a / d % 2 = 0)) ∨
      roundHalfEven a d = a / d + 1 ∧ (d < 2 * (a % d) ∨ 2 * (a % d) = d ∧ a / d % 2 = 1) := by
  unfold roundHalfEven
  split
  case isTrue down => exact .inl ⟨rfl, down⟩
  case isFalse up => exact .inr ⟨rfl, by omega⟩

theorem le_roundHalfEven (positive : 0 < d) (h : k * d ≤ a) : k ≤ roundHalfEven a d := by
  have whole := (Nat.le_div_iff_mul_le positive).mpr h
  rcases roundHalfEven_cases a d with ⟨down, _⟩ | ⟨up, _⟩ <;> omega

theorem roundHalfEven_le (positive : 0 < d) (h : a ≤ k * d) : roundHalfEven a d ≤ k := by
  have whole := Nat.div_le_of_le_mul (Nat.mul_comm k d ▸ h)
  rcases roundHalfEven_cases a d with ⟨down, _⟩ | ⟨up, rest⟩
  · omega
  · -- A rest is left over, so the dividend is no multiple and lies below this one.
    rcases Nat.lt_or_ge (a / d) k with below | above
    · omega
    · have := (Nat.le_div_iff_mul_le positive).mp above
      have none : a % d = 0 := by
        rw [Nat.le_antisymm h this, Nat.mul_mod_left]
      omega

/-- Any other multiple of the divisor is farther from the dividend, or as far and the one that is
chosen is even. -/
theorem roundHalfEven_closest (positive : 0 < d) (other : k ≠ roundHalfEven a d) :
    ((a : Int) - roundHalfEven a d * d).natAbs < ((a : Int) - k * d).natAbs ∨
      ((a : Int) - roundHalfEven a d * d).natAbs = ((a : Int) - k * d).natAbs ∧
        roundHalfEven a d % 2 = 0 := by
  have whole := Nat.div_add_mod' a d
  have rest := Nat.mod_lt a positive
  have side (i : Nat) : i < k ∧ i * d + d ≤ k * d ∨ k = i ∨ k < i ∧ k * d + d ≤ i * d := by
    rcases Nat.lt_trichotomy i k with above | same | below
    · exact .inl ⟨above, Nat.succ_mul i d ▸ Nat.mul_le_mul_right d above⟩
    · exact .inr (.inl same.symm)
    · exact .inr (.inr ⟨below, Nat.succ_mul k d ▸ Nat.mul_le_mul_right d below⟩)
  have next : (a / d + 1) * d = a / d * d + d := Nat.succ_mul _ _
  have cast (i : Nat) : (i : Int) * d = (i * d : Nat) := (Nat.cast_mul i d).symm
  rcases roundHalfEven_cases a d with ⟨down, nearer⟩ | ⟨up, nearer⟩
  · rw [down] at other ⊢
    rw [cast, cast]
    rcases side (a / d) with h | h | h <;> omega
  · rw [up] at other ⊢
    rw [cast, cast, next]
    rcases side (a / d + 1) with h | h | h <;> omega

end HalfEven

/-- Among numbers of these values the `n`-th is nearer to `x` than the `k`-th, or it is as near and
`n` is even. -/
def Prefers (values : Nat → Rat) (x : Rat) (n k : Nat) : Prop :=
  |x - values n| < |x - values k| ∨ |x - values n| = |x - values k| ∧ n % 2 = 0

theorem Prefers.le {values : Nat → Rat} {x : Rat} {n k : Nat} (h : Prefers values x n k) :
    |x - values n| ≤ |x - values k| := by
  rcases h with nearer | ⟨tied, -⟩
  · exact le_of_lt nearer
  · exact le_of_eq tied

namespace Precision

/-- The power of the unit that a number is rounded to. -/
def unitPower (p : Precision) (m : Nat) (q : Int) : Int :=
  max (q + Nat.log2 m - p.fractionBits) p.leastPower

/-- How many units are nearest. -/
def units (p : Precision) (m : Nat) (q : Int) : Nat :=
  roundHalfEven (m <<< (q - p.unitPower m q).toNat) (1 <<< (p.unitPower m q - q).toNat)

/-- The units, counted on in the exponent. -/
def carried (p : Precision) (m : Nat) (q : Int) : Nat :=
  p.units m q + (p.unitPower m q - p.leastPower).toNat * p.hiddenBit

variable {p : Precision} {m n : Nat} {q : Int}

theorem nearest_eq (some : m ≠ 0) :
    Floating.nearest p m q = min (p.carried m q) p.infinity := by
  rw [Floating.nearest, if_neg some]
  rfl

private theorem unit_pos : 0 < 1 <<< (p.unitPower m q - q).toNat := by
  rw [Nat.one_shiftLeft]
  exact Nat.two_pow_pos _

private theorem units_le : p.units m q ≤ 2 * p.hiddenBit := by
  apply roundHalfEven_le unit_pos
  rw [hiddenBit_eq, Nat.shiftLeft_eq, Nat.one_shiftLeft, ← Nat.pow_succ', ← Nat.pow_add]
  have exponents : Nat.log2 m + 1 + (q - p.unitPower m q).toNat ≤
      p.fractionBits + 1 + (p.unitPower m q - q).toNat := by
    unfold unitPower
    omega
  calc m * 2 ^ (q - p.unitPower m q).toNat
      ≤ 2 ^ (Nat.log2 m + 1) * 2 ^ (q - p.unitPower m q).toNat :=
        Nat.mul_le_mul_right _ (Nat.le_of_lt Nat.lt_log2_self)
    _ = 2 ^ (Nat.log2 m + 1 + (q - p.unitPower m q).toNat) := (Nat.pow_add ..).symm
    _ ≤ 2 ^ (p.fractionBits + 1 + (p.unitPower m q - q).toNat) :=
        Nat.pow_le_pow_right (by decide) exponents

/-- Above the least unit what is rounded has all of the digits. -/
private theorem hiddenBit_mul_le (some : m ≠ 0) (normal : p.leastPower < p.unitPower m q) :
    p.hiddenBit * 1 <<< (p.unitPower m q - q).toNat ≤ m <<< (q - p.unitPower m q).toNat := by
  rw [hiddenBit_eq, Nat.one_shiftLeft, Nat.shiftLeft_eq, ← Nat.pow_add]
  have exponents : p.fractionBits + (p.unitPower m q - q).toNat =
      Nat.log2 m + (q - p.unitPower m q).toNat := by
    unfold unitPower at normal ⊢
    omega
  rw [exponents, Nat.pow_add]
  exact Nat.mul_le_mul_right _ (Nat.log2_self_le some)

private theorem units_normal (some : m ≠ 0) :
    (p.unitPower m q - p.leastPower).toNat = 0 ∨ p.hiddenBit ≤ p.units m q := by
  rcases Nat.eq_zero_or_pos (p.unitPower m q - p.leastPower).toNat with least | above
  · exact .inl least
  · exact .inr (le_roundHalfEven unit_pos (hiddenBit_mul_le some (by omega)))

private theorem rank_add : ((p.unitPower m q - p.leastPower).toNat : Int) + p.leastPower =
    p.unitPower m q := by
  unfold unitPower
  omega

theorem worth_add {r k : Nat} (fits : r ≤ 2 * p.hiddenBit) (normal : k = 0 ∨ p.hiddenBit ≤ r) :
    p.worth (r + k * p.hiddenBit) = r * 2 ^ (k + p.leastPower) := by
  rw [worth, multiple_add fits normal, zpow_add₀ (by norm_num), zpow_natCast, ← mul_assoc]
  push_cast
  rfl

theorem worth_carried (some : m ≠ 0) :
    p.worth (p.carried m q) = p.units m q * 2 ^ p.unitPower m q := by
  rw [carried, worth_add units_le (units_normal some), rank_add]

/-- A number is a multiple of the unit, or less than all that is rounded to this unit. -/
private theorem on_grid_or_below (p : Precision) (m : Nat) (q : Int) (n : Nat) :
    (∃ j : Nat, p.worth n = j * 2 ^ p.unitPower m q) ∨
      p.leastPower < p.unitPower m q ∧ p.worth n < p.hiddenBit * 2 ^ p.unitPower m q := by
  have two : (2 : Rat) ≠ 0 := by norm_num
  have least : p.leastPower ≤ p.unitPower m q := le_max_right _ _
  obtain ⟨r, k, rfl, below, normal⟩ := p.exists_parts n
  rw [worth_add (Nat.le_of_lt below) normal]
  rcases lt_or_ge (k + p.leastPower) (p.unitPower m q) with fine | coarse
  · refine .inr ⟨by omega, ?_⟩
    have digits : (r : Rat) < 2 * p.hiddenBit := by exact_mod_cast below
    have power : (0 : Rat) < 2 ^ (k + p.leastPower) := zpow_pos (by norm_num) _
    calc (r : Rat) * 2 ^ (k + p.leastPower)
        < 2 * p.hiddenBit * 2 ^ (k + p.leastPower) := mul_lt_mul_of_pos_right digits power
      _ = p.hiddenBit * 2 ^ (k + p.leastPower + 1) := by rw [zpow_add_one₀ two]; ring
      _ ≤ p.hiddenBit * 2 ^ p.unitPower m q :=
        mul_le_mul_of_nonneg_left (zpow_le_zpow_right₀ (by norm_num) fine) (Nat.cast_nonneg _)
  · obtain ⟨d, hd⟩ := Int.le.dest coarse
    refine .inl ⟨r * 2 ^ d, ?_⟩
    rw [← hd, add_comm, zpow_add₀ two, zpow_natCast, ← mul_assoc]
    push_cast
    rfl

private theorem unit_mul_zpow :
    ((1 <<< (p.unitPower m q - q).toNat : Nat) : Rat) * 2 ^ min q (p.unitPower m q) =
      2 ^ p.unitPower m q := by
  rw [min_comm, shiftLeft_mul_zpow, Nat.cast_one, one_mul]

/-- Distances from multiples of the unit, counted in whole numbers. -/
private theorem abs_sub_units (p : Precision) (m : Nat) (q : Int) (j : Nat) :
    |(m : Rat) * 2 ^ q - j * 2 ^ p.unitPower m q| =
      (((m <<< (q - p.unitPower m q).toNat : Nat) : Int) -
        j * (1 <<< (p.unitPower m q - q).toNat : Nat)).natAbs * 2 ^ min q (p.unitPower m q) := by
  have dividend := shiftLeft_mul_zpow m q (p.unitPower m q)
  have positive : (0 : Rat) < 2 ^ min q (p.unitPower m q) := zpow_pos (by norm_num) _
  rw [← dividend, ← unit_mul_zpow]
  generalize m <<< (q - p.unitPower m q).toNat = a
  generalize 1 <<< (p.unitPower m q - q).toNat = d
  rw [Nat.cast_natAbs, Int.cast_abs, ← mul_assoc, ← sub_mul, abs_mul, abs_of_pos positive]
  push_cast
  rfl

private theorem units_closest {j : Nat} (other : j ≠ p.units m q) :
    Prefers (fun j => j * 2 ^ p.unitPower m q) (m * 2 ^ q) (p.units m q) j := by
  have positive : (0 : Rat) < 2 ^ min q (p.unitPower m q) := zpow_pos (by norm_num) _
  simp only [Prefers, abs_sub_units]
  rcases roundHalfEven_closest unit_pos other with nearer | ⟨tied, even⟩
  · exact .inl (mul_lt_mul_of_pos_right (Nat.cast_lt.mpr nearer) positive)
  · exact .inr ⟨by rw [units, tied], even⟩

theorem carried_closest (some : m ≠ 0) (other : n ≠ p.carried m q) :
    Prefers p.worth (m * 2 ^ q) (p.carried m q) n := by
  have different := p.worth_strictMono.injective.ne other
  rw [Prefers, worth_carried some]
  rw [worth_carried some] at different
  rcases p.on_grid_or_below m q n with ⟨j, grid⟩ | ⟨normal, below⟩
  · rw [grid] at different ⊢
    have other' : j ≠ p.units m q := fun same => different (by rw [same])
    rcases units_closest other' with nearer | ⟨tied, even⟩
    · exact .inl nearer
    · refine .inr ⟨tied, ?_⟩
      have hidden : p.hiddenBit % 2 = 0 := by cases p <;> rfl
      rw [carried, Nat.add_mod, even, Nat.mul_mod, hidden, Nat.mul_zero]
  · -- The least number with all digits is between, and not nearer than the units.
    left
    have full : (p.hiddenBit : Rat) * 2 ^ p.unitPower m q ≤ m * 2 ^ q := by
      have digits := hiddenBit_mul_le some normal
      have dividend := shiftLeft_mul_zpow m q (p.unitPower m q)
      rw [← dividend, ← unit_mul_zpow, ← mul_assoc, ← Nat.cast_mul]
      exact mul_le_mul_of_nonneg_right (Nat.cast_le.mpr digits) (zpow_nonneg (by norm_num) _)
    have units : |(m : Rat) * 2 ^ q - p.units m q * 2 ^ p.unitPower m q| ≤
        |(m : Rat) * 2 ^ q - p.hiddenBit * 2 ^ p.unitPower m q| := by
      by_cases same : p.hiddenBit = p.units m q
      · rw [same]
      · exact (units_closest same).le
    refine lt_of_le_of_lt units ?_
    rw [abs_of_nonneg (by linarith), abs_of_nonneg (by linarith)]
    linarith

theorem infinity_pos (p : Precision) : 0 < p.infinity := by
  cases p <;> decide

/-- What is no larger than the largest number is rounded to the nearest number, and to the even one
of two that are as near. -/
theorem nearest_closest (inside : (m : Rat) * 2 ^ q ≤ p.worth (p.infinity - 1)) :
    Floating.nearest p m q < p.infinity ∧ ∀ n, n ≠ Floating.nearest p m q →
      Prefers p.worth (m * 2 ^ q) (Floating.nearest p m q) n := by
  have positive := p.infinity_pos
  by_cases zero : m = 0
  · subst zero
    have nearest : Floating.nearest p 0 q = 0 := if_pos rfl
    rw [nearest]
    refine ⟨positive, fun n other => .inl ?_⟩
    have positive := p.worth_strictMono (Nat.pos_of_ne_zero other)
    rw [worth_zero] at positive
    rw [worth_zero, Nat.cast_zero, zero_mul, sub_zero, abs_zero, zero_sub, abs_neg]
    exact abs_pos.mpr (ne_of_gt positive)
  · -- The largest number is nearer than all that lies behind it.
    have finite : p.carried m q ≤ p.infinity - 1 := by
      by_contra beyond
      have larger := p.worth_strictMono (Nat.not_le.mp beyond)
      have closest := (carried_closest zero (Nat.ne_of_lt (Nat.not_le.mp beyond))).le
      rw [abs_of_nonpos (by linarith), abs_of_nonpos (by linarith)] at closest
      linarith
    have nearest : Floating.nearest p m q = p.carried m q := by
      rw [nearest_eq zero, Nat.min_eq_left (by omega)]
    rw [nearest]
    exact ⟨by omega, fun n other => carried_closest zero other⟩

/-- A number of the precision is rounded to itself. -/
theorem nearest_of_worth (finite : n < p.infinity) (h : p.worth n = m * 2 ^ q) :
    Floating.nearest p m q = n := by
  have inside : (m : Rat) * 2 ^ q ≤ p.worth (p.infinity - 1) := by
    rw [← h]
    exact p.worth_strictMono.monotone (by omega)
  by_contra other
  have closest := ((nearest_closest inside).2 n (Ne.symm other)).le
  rw [← h, sub_self, abs_zero] at closest
  have same := sub_eq_zero.mp (abs_nonpos_iff.mp closest)
  exact other (p.worth_strictMono.injective same.symm)

end Precision
end ByteSchema
