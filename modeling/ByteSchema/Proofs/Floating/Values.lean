import ByteSchema.Proofs.WordBytes
import Mathlib.Algebra.Order.Field.Rat
import Mathlib.Algebra.Order.Field.Power
import Mathlib.Tactic.FieldSimp
import Mathlib.Tactic.Linarith
import Mathlib.Tactic.NormNum
import Mathlib.Tactic.Ring

/-!
# The numbers that patterns stand for

Without its sign a pattern counts through the finite numbers of a precision in their order, each a
multiple of the least positive one.  A carry out of the fraction goes on counting in the exponent,
which is why rounding can add the two up.
-/
namespace ByteSchema

namespace Precision

/-- What the exponent field of one is. -/
def bias (p : Precision) : Nat := p.topExponent / 2

/-- How many times the least positive number a pattern without sign is. -/
def multiple (p : Precision) (n : Nat) : Nat :=
  (if n / p.hiddenBit = 0 then n % p.hiddenBit else p.hiddenBit + n % p.hiddenBit) *
    2 ^ (n / p.hiddenBit - 1)

/-- The pattern of the infinities, without sign. -/
def infinity (p : Precision) : Nat := p.topExponent * p.hiddenBit

theorem hiddenBit_eq (p : Precision) : p.hiddenBit = 2 ^ p.fractionBits := Nat.one_shiftLeft _

theorem hiddenBit_pos (p : Precision) : 0 < p.hiddenBit := by
  rw [hiddenBit_eq]
  exact Nat.two_pow_pos _

theorem signBit_eq (p : Precision) : p.signBit = p.infinity + p.hiddenBit := by
  cases p <;> rfl

theorem span_bytes (p : Precision) : span p.bytes = 2 * p.signBit := by
  cases p <;> rfl

theorem leastPower_eq (p : Precision) : p.leastPower = 1 - p.bias - p.fractionBits := by
  cases p <;> rfl

variable {p : Precision} {n r k : Nat}

/-- A significand next to its exponent, with the carry that rounding may leave in it. -/
theorem multiple_add (fits : r ≤ 2 * p.hiddenBit) (normal : k = 0 ∨ p.hiddenBit ≤ r) :
    p.multiple (r + k * p.hiddenBit) = r * 2 ^ k := by
  have positive := p.hiddenBit_pos
  unfold multiple
  rw [Nat.add_mul_div_right _ _ positive, Nat.add_mul_mod_self_right]
  rcases Nat.lt_or_ge r p.hiddenBit with small | large
  · obtain rfl : k = 0 := by omega
    rw [Nat.div_eq_of_lt small, Nat.mod_eq_of_lt small, if_pos rfl]
  rcases Nat.lt_or_ge r (2 * p.hiddenBit) with below | carry
  · have one : r / p.hiddenBit = 1 := Nat.div_eq_of_lt_le (by omega) (by omega)
    have rest : r % p.hiddenBit = r - p.hiddenBit := by
      rw [Nat.mod_eq_sub_mod large, Nat.mod_eq_of_lt (by omega)]
    rw [one, rest, if_neg (by omega), Nat.add_sub_cancel' large, Nat.add_sub_cancel_left]
  · obtain rfl : r = 2 * p.hiddenBit := by omega
    have shift : 2 + k - 1 = k + 1 := by omega
    rw [Nat.mul_div_cancel _ positive, Nat.mul_mod_left, if_neg (by omega), shift, Nat.pow_succ]
    ring

theorem multiple_infinity (p : Precision) :
    p.multiple p.infinity = p.hiddenBit * 2 ^ (p.topExponent - 1) := by
  have carry : p.infinity = p.hiddenBit + (p.topExponent - 1) * p.hiddenBit := by
    cases p <;> rfl
  rw [carry, multiple_add (by omega) (.inr (Nat.le_refl _))]

theorem exists_parts (p : Precision) (n : Nat) :
    ∃ r k, n = r + k * p.hiddenBit ∧ r < 2 * p.hiddenBit ∧ (k = 0 ∨ p.hiddenBit ≤ r) := by
  have positive := p.hiddenBit_pos
  have rest := Nat.mod_lt n positive
  have whole := Nat.mod_add_div' n p.hiddenBit
  cases he : n / p.hiddenBit with
  | zero =>
    refine ⟨n, 0, by omega, ?_, .inl rfl⟩
    rw [he] at whole
    omega
  | succ k =>
    refine ⟨n % p.hiddenBit + p.hiddenBit, k, ?_, by omega, .inr (by omega)⟩
    rw [he, Nat.succ_mul] at whole
    omega

theorem multiple_lt_succ (p : Precision) (n : Nat) : p.multiple n < p.multiple (n + 1) := by
  obtain ⟨r, k, rfl, below, normal⟩ := p.exists_parts n
  have next : r + k * p.hiddenBit + 1 = (r + 1) + k * p.hiddenBit := by omega
  rw [next, multiple_add (Nat.le_of_lt below) normal, multiple_add below (by omega)]
  exact Nat.mul_lt_mul_of_pos_right (Nat.lt_succ_self r) (Nat.two_pow_pos k)

theorem multiple_strictMono (p : Precision) : StrictMono p.multiple :=
  strictMono_nat_of_lt_succ p.multiple_lt_succ

/-- Whatever has no more digits than a significand is a number of the precision, or beyond all. -/
theorem exists_multiple (digits : r < 2 * p.hiddenBit) (k : Nat) :
    ∃ n, p.multiple n = r * 2 ^ k := by
  induction k generalizing r with
  | zero =>
    refine ⟨r + 0 * p.hiddenBit, ?_⟩
    rw [multiple_add (Nat.le_of_lt digits) (.inl rfl)]
  | succ k ih =>
    rcases Nat.lt_or_ge r p.hiddenBit with small | large
    · obtain ⟨n, hn⟩ := ih (r := 2 * r) (by omega)
      exact ⟨n, by rw [hn, Nat.pow_succ]; ring⟩
    · exact ⟨_, multiple_add (Nat.le_of_lt digits) (.inr large)⟩

/-- What a pattern without sign is worth. -/
def worth (p : Precision) (n : Nat) : Rat := p.multiple n * 2 ^ p.leastPower

theorem worth_strictMono (p : Precision) : StrictMono p.worth := by
  intro n m h
  have least : (0 : Rat) < 2 ^ p.leastPower := zpow_pos (by norm_num) _
  exact mul_lt_mul_of_pos_right (Nat.cast_lt.mpr (p.multiple_strictMono h)) least

@[simp] theorem worth_zero (p : Precision) : p.worth 0 = 0 := by
  simp [worth, multiple]

theorem worth_nonneg (p : Precision) (n : Nat) : 0 ≤ p.worth n :=
  mul_nonneg (Nat.cast_nonneg _) (zpow_nonneg (by norm_num) _)

end Precision

/-- A shift takes up a power, down to the lesser of two. -/
theorem shiftLeft_mul_zpow (m : Nat) (q u : Int) :
    ((m <<< (q - u).toNat : Nat) : Rat) * 2 ^ min q u = m * 2 ^ q := by
  have powers : ((q - u).toNat : Int) + min q u = q := by omega
  rw [Nat.shiftLeft_eq, Nat.cast_mul, Nat.cast_pow, Nat.cast_ofNat, mul_assoc, ← zpow_natCast,
    ← zpow_add₀ (by norm_num), powers]

namespace Floating

/-- The pattern without the sign. -/
def unsigned (x : Floating) : Nat := x.pattern % x.precision.signBit

/-- The absolute value of a finite number. -/
def magnitude (x : Floating) : Rat :=
  if x.exponent = 0 then
    x.fraction / 2 ^ x.precision.fractionBits * 2 ^ (1 - x.precision.bias : Int)
  else (1 + x.fraction / 2 ^ x.precision.fractionBits) * 2 ^ (x.exponent - x.precision.bias : Int)

/-- The value of a finite number. -/
def value (x : Floating) : Rat := if x.negative then -x.magnitude else x.magnitude

def Infinite (x : Floating) : Prop := x.finite = false ∧ x.fraction = 0

def NotANumber (x : Floating) : Prop := x.finite = false ∧ x.fraction ≠ 0

variable {x y : Floating}

theorem fraction_eq (x : Floating) : x.fraction = x.unsigned % x.precision.hiddenBit := by
  have dvd : x.precision.hiddenBit ∣ x.precision.signBit := by
    rw [Precision.signBit_eq]
    exact ⟨x.precision.topExponent + 1, by rw [Precision.infinity]; ring⟩
  rw [fraction, unsigned, Nat.mod_mod_of_dvd _ dvd]

theorem magnitude_eq (x : Floating) : x.magnitude = x.significand * 2 ^ x.power := by
  have two : (2 : Rat) ≠ 0 := by norm_num
  have hidden : (2 : Rat) ^ x.precision.fractionBits ≠ 0 := pow_ne_zero _ two
  have power : x.power = (if x.exponent = 0 then (1 - x.precision.bias : Int) else
      x.exponent - x.precision.bias) - x.precision.fractionBits := by
    rw [Floating.power, Precision.leastPower_eq]
    split <;> omega
  rw [power, zpow_sub₀ two, zpow_natCast, magnitude, significand]
  split
  · ring
  · rw [Precision.hiddenBit_eq]
    push_cast
    field_simp

theorem magnitude_eq_worth (x : Floating) : x.magnitude = x.precision.worth x.unsigned := by
  have two : (2 : Rat) ≠ 0 := by norm_num
  rw [magnitude_eq, power, significand, fraction_eq, zpow_add₀ two, zpow_natCast, ← mul_assoc,
    Precision.worth, Precision.multiple]
  push_cast
  rfl

theorem abs_value (x : Floating) : |x.value| = x.magnitude := by
  have nonneg : 0 ≤ x.magnitude := by
    rw [magnitude_eq_worth]
    exact Precision.worth_nonneg _ _
  unfold value
  split
  · rw [abs_neg, abs_of_nonneg nonneg]
  · exact abs_of_nonneg nonneg

theorem unsigned_lt (x : Floating) : x.unsigned < x.precision.signBit :=
  Nat.mod_lt _ (Nat.two_pow_pos _ |>.trans_eq (Nat.one_shiftLeft _).symm)

theorem finite_iff : x.finite = true ↔ x.unsigned < x.precision.infinity := by
  rw [finite, decide_eq_true_eq]
  exact Nat.div_lt_iff_lt_mul x.precision.hiddenBit_pos

theorem infinite_iff : x.Infinite ↔ x.unsigned = x.precision.infinity := by
  have below := x.unsigned_lt
  rw [Precision.signBit_eq] at below
  rw [Infinite, ← Bool.not_eq_true, finite_iff, fraction_eq]
  constructor
  · rintro ⟨beyond, fraction⟩
    obtain ⟨rest, hrest⟩ := Nat.exists_eq_add_of_le (Nat.not_lt.mp beyond)
    rw [hrest, Precision.infinity, Nat.mul_add_mod_self_right,
      Nat.mod_eq_of_lt (by omega)] at fraction
    rw [hrest, fraction, Nat.add_zero]
  · intro h
    rw [h]
    exact ⟨Nat.lt_irrefl _, Nat.mul_mod_left _ _⟩

/-- Of two finite numbers the one with the larger value exceeds the other. -/
theorem exceeds_iff : x.exceeds y = true ↔ y.magnitude < x.magnitude := by
  have positive : (0 : Rat) < 2 ^ min x.power y.power := zpow_pos (by norm_num) _
  have small := shiftLeft_mul_zpow y.significand y.power x.power
  have large := shiftLeft_mul_zpow x.significand x.power y.power
  rw [min_comm] at small
  rw [exceeds, decide_eq_true_eq, magnitude_eq, magnitude_eq, ← small, ← large,
    mul_lt_mul_iff_left₀ positive, Nat.cast_lt]

/-- The number of a sign and a pattern without one. -/
def ofParts (p : Precision) (negative : Bool) (n : Nat) : Floating :=
  ofPattern p ((if negative then p.signBit else 0) + n)

section Parts

variable {p : Precision} {negative : Bool} {n : Nat}

@[simp] theorem precision_ofParts : (ofParts p negative n).precision = p := precision_ofPattern _ _

theorem pattern_ofParts (negative : Bool) (h : n < p.signBit) :
    (ofParts p negative n).pattern = (if negative then p.signBit else 0) + n := by
  apply pattern_ofPattern
  rw [Precision.span_bytes]
  split <;> omega

theorem negative_ofParts (negative : Bool) (h : n < p.signBit) :
    (ofParts p negative n).negative = negative := by
  rw [Floating.negative, precision_ofParts, pattern_ofParts negative h]
  cases negative <;> simp [h]

theorem unsigned_ofParts (negative : Bool) (h : n < p.signBit) :
    (ofParts p negative n).unsigned = n := by
  rw [unsigned, precision_ofParts, pattern_ofParts negative h]
  cases negative <;> simp [Nat.mod_eq_of_lt h]

theorem ofParts_self (x : Floating) : ofParts x.precision x.negative x.unsigned = x := by
  have bound := x.pattern_lt
  rw [Precision.span_bytes] at bound
  have pattern : (if x.negative then x.precision.signBit else 0) + x.unsigned = x.pattern := by
    rw [negative, unsigned]
    by_cases signed : x.precision.signBit ≤ x.pattern
    · rw [Nat.mod_eq_sub_mod signed, Nat.mod_eq_of_lt (by omega), decide_eq_true signed, if_pos rfl]
      omega
    · rw [Nat.mod_eq_of_lt (by omega), decide_eq_false signed, if_neg (by decide), Nat.zero_add]
  rw [ofParts, pattern, ofPattern_pattern]

end Parts

theorem eq_of_unsigned (precision : x.precision = y.precision) (sign : x.negative = y.negative)
    (pattern : x.unsigned = y.unsigned) : x = y := by
  rw [← ofParts_self x, ← ofParts_self y, precision, sign, pattern]

end Floating
end ByteSchema
