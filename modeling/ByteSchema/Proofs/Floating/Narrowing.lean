import ByteSchema.Proofs.Floating.Nearest
import ByteSchema.Proofs.SchemaImages

/-!
# Numbers stored in another precision

A number that the precision has is stored as this number, and any other one as a number that is
nearest to it, always with the sign that it had.  No finite number becomes an infinity: a double
beyond every single is refused.
-/
namespace ByteSchema

namespace Floating

variable {p : Precision} {x y z : Floating}

/-- A finite number that is larger in absolute value than every single. -/
def Beyond (x : Floating) : Prop := x.finite = true ∧ largestSingle.value < |x.value|

private theorem largestSingle_value :
    largestSingle.value = Precision.single.worth (Precision.single.infinity - 1) := by
  have positive : largestSingle.value = largestSingle.magnitude := if_neg (by decide)
  rw [positive]
  exact magnitude_eq_worth largestSingle

theorem exceeds_largestSingle_iff :
    x.exceeds largestSingle = true ↔ largestSingle.value < |x.value| := by
  rw [exceeds_iff, abs_value, largestSingle_value, magnitude_eq_worth largestSingle]
  rfl

theorem fit_single_of_beyond {bits : UInt64} (h : (double bits).Beyond) :
    (double bits).fit .single = Outcome.fail (.floatOutOfRange bits) := by
  have same : UInt64.ofNat (double bits).pattern = bits := UInt64.ofNat_toNat
  rw [fit, if_pos ⟨rfl, h.1, exceeds_largestSingle_iff.mpr h.2⟩, same]

theorem fit_single_of_not_beyond (h : ¬ x.Beyond) : x.fit .single = .ok (x.convert .single) := by
  refine if_neg ?_
  rintro ⟨-, finite, beyond⟩
  exact h ⟨finite, exceeds_largestSingle_iff.mp beyond⟩

theorem fit_double (x : Floating) : x.fit .double = .ok (x.convert .double) :=
  if_neg (by simp)

/-- A finite number lies between the largest one and its negative. -/
theorem magnitude_le_largest (finite : x.finite = true) :
    x.magnitude ≤ x.precision.worth (x.precision.infinity - 1) := by
  rw [magnitude_eq_worth]
  exact x.precision.worth_strictMono.monotone (Nat.le_sub_one_of_lt (finite_iff.mp finite))

theorem abs_value_sub (sign : y.negative = x.negative) :
    |x.value - y.value| = |x.magnitude - y.magnitude| := by
  rw [value, value, sign]
  split
  · rw [neg_sub_neg, abs_sub_comm]
  · rfl

theorem abs_magnitude_sub_le (x z : Floating) :
    |x.magnitude - z.magnitude| ≤ |x.value - z.value| := by
  rw [← abs_value x, ← abs_value z]
  exact abs_abs_sub_abs_le _ _

theorem precision_convert (p : Precision) (x : Floating) : (x.convert p).precision = p := by
  unfold convert
  split
  case isTrue same => exact same
  case isFalse => exact precision_ofPattern _ _

private theorem infinity_lt_signBit (p : Precision) : p.infinity < p.signBit := by
  have := p.hiddenBit_pos
  rw [Precision.signBit_eq]
  omega

/-- A finite number within the range becomes the number of its sign and the nearest pattern. -/
private theorem convert_finite (finite : x.finite = true)
    (inside : x.magnitude ≤ p.worth (p.infinity - 1)) :
    x.convert p = ofParts p x.negative (nearest p x.significand x.power) := by
  by_cases same : x.precision = p
  · subst same
    have nearest := Precision.nearest_of_worth (finite_iff.mp finite)
      ((magnitude_eq_worth x).symm.trans (magnitude_eq x))
    rw [nearest, ofParts_self]
    exact if_pos rfl
  · rw [convert, if_neg same, if_pos finite, ofParts]

private theorem convert_infinite (infinite : x.Infinite) :
    x.convert p = ofParts p x.negative p.infinity := by
  by_cases same : x.precision = p
  · subst same
    rw [← infinite_iff.mp infinite, ofParts_self]
    exact if_pos rfl
  · have special : special p x = p.infinity := by
      rw [special, if_pos infinite.2]
      rfl
    have finite : ¬ x.finite = true := by simp [infinite.1]
    rw [convert, if_neg same, if_neg finite, special, ofParts]

theorem infinite_convert (infinite : x.Infinite) :
    (x.convert p).Infinite ∧ (x.convert p).negative = x.negative := by
  have small := infinity_lt_signBit p
  rw [convert_infinite infinite]
  refine ⟨infinite_iff.mpr ?_, negative_ofParts _ small⟩
  rw [unsigned_ofParts _ small, precision_ofParts]

/-- No number of the precision is nearer than what a number is converted to. -/
theorem convert_nearest (finite : x.finite = true)
    (inside : x.magnitude ≤ p.worth (p.infinity - 1)) :
    (x.convert p).finite = true ∧ (x.convert p).negative = x.negative ∧
      ∀ z : Floating, z.precision = p → |x.value - (x.convert p).value| ≤ |x.value - z.value| := by
  have large := infinity_lt_signBit p
  have rounded := magnitude_eq x
  have range := inside
  rw [rounded] at range
  obtain ⟨below, closest⟩ := Precision.nearest_closest range
  rw [← rounded] at closest
  rw [convert_finite finite inside]
  have small := Nat.lt_trans below large
  have sign := negative_ofParts x.negative small
  have pattern := unsigned_ofParts x.negative small
  refine ⟨?_, sign, fun z precision => ?_⟩
  · rw [finite_iff, pattern, precision_ofParts]
    exact below
  · rw [abs_value_sub sign]
    refine le_trans ?_ (abs_magnitude_sub_le x z)
    rw [magnitude_eq_worth (ofParts ..), magnitude_eq_worth z, pattern, precision_ofParts,
      precision]
    by_cases same : z.unsigned = nearest p x.significand x.power
    · rw [same]
    · exact (closest _ same).le

/-- A number that the precision has is converted to this number. -/
theorem convert_exact (precision : y.precision = p) (finite : y.finite = true)
    (finite' : x.finite = true) (sign : y.negative = x.negative)
    (same : y.magnitude = x.magnitude) : x.convert p = y := by
  subst precision
  have inside := magnitude_le_largest finite
  rw [same] at inside
  have nearest := Precision.nearest_of_worth (finite_iff.mp finite)
    ((magnitude_eq_worth y).symm.trans (same.trans (magnitude_eq x)))
  rw [convert_finite finite' inside, nearest, ← sign, ofParts_self]

/-- Every finite single is a double. -/
theorem exists_double (single : x.precision = .single) (finite : x.finite = true) :
    ∃ y : Floating, y.precision = .double ∧ y.finite = true ∧ y.negative = x.negative ∧
      y.magnitude = x.magnitude := by
  have exponent : x.exponent < 255 := by
    simpa [Floating.finite, single, Precision.topExponent] using finite
  have digits : x.significand < 2 ^ 24 := by
    have fraction : x.fraction < x.precision.hiddenBit := Nat.mod_lt _ x.precision.hiddenBit_pos
    have hidden : x.precision.hiddenBit = 2 ^ 23 := by rw [single]; rfl
    unfold significand
    split <;> omega
  obtain ⟨n, hn⟩ := Precision.exists_multiple (p := .double) (r := x.significand)
    (Nat.lt_trans digits (by decide)) (x.exponent - 1 + 925)
  have power : x.power = (x.exponent - 1 + 925 : Nat) + Precision.double.leastPower := by
    rw [Floating.power, single, Precision.leastPower, Precision.leastPower]
    omega
  have worth : Precision.double.worth n = x.magnitude := by
    rw [magnitude_eq, power, Precision.worth, hn, zpow_add₀ (by norm_num), zpow_natCast,
      ← mul_assoc]
    push_cast
    rfl
  have below : n < Precision.double.infinity := by
    refine Precision.double.multiple_strictMono.lt_iff_lt.mp ?_
    rw [hn, Precision.multiple_infinity]
    have room : x.exponent - 1 + 925 ≤ Precision.double.topExponent - 1 := by
      rw [Precision.topExponent]
      omega
    calc x.significand * 2 ^ (x.exponent - 1 + 925)
        < 2 ^ 24 * 2 ^ (x.exponent - 1 + 925) :=
          Nat.mul_lt_mul_of_pos_right digits (Nat.two_pow_pos _)
      _ ≤ Precision.double.hiddenBit * 2 ^ (Precision.double.topExponent - 1) :=
          Nat.mul_le_mul (by decide) (Nat.pow_le_pow_right (by decide) room)
  have small := Nat.lt_trans below (infinity_lt_signBit .double)
  refine ⟨ofParts .double x.negative n, precision_ofParts, ?_, negative_ofParts _ small, ?_⟩
  · rw [finite_iff, unsigned_ofParts _ small, precision_ofParts]
    exact below
  · rw [magnitude_eq_worth, unsigned_ofParts _ small, precision_ofParts, worth]

private theorem infinite_of_number (number : ¬ x.NotANumber) (h : ¬ x.finite = true) :
    x.Infinite := by
  have other : x.finite = false := Bool.not_eq_true _ ▸ h
  exact ⟨other, by_contra fun payload => number ⟨other, payload⟩⟩

/-- Widening a single loses nothing, and narrowing the double gives the single again. -/
theorem convert_double (single : x.precision = .single) (number : ¬ x.NotANumber) :
    (x.convert .double).negative = x.negative ∧
      (x.finite = true → (x.convert .double).finite = true ∧ (x.convert .double).value = x.value) ∧
      (x.finite = false → (x.convert .double).Infinite) ∧
      (x.convert .double).fit .single = .ok x := by
  by_cases finite : x.finite = true
  · obtain ⟨y, precision, finite', sign, same⟩ := exists_double single finite
    have widened := convert_exact precision finite' finite sign same
    have narrowed := convert_exact single finite finite' sign.symm same.symm
    have value : y.value = x.value := by rw [Floating.value, Floating.value, sign, same]
    have inside : ¬ y.Beyond := by
      rintro ⟨-, beyond⟩
      have largest := magnitude_le_largest finite
      rw [single, ← largestSingle_value] at largest
      rw [abs_value, same] at beyond
      exact absurd beyond (not_lt.mpr largest)
    rw [widened]
    refine ⟨sign, fun _ => ⟨finite', value⟩, fun h => by simp [finite] at h, ?_⟩
    rw [fit_single_of_not_beyond inside, narrowed]
  · have infinite := infinite_of_number number finite
    obtain ⟨widened, sign⟩ := infinite_convert (p := .double) infinite
    obtain ⟨narrowed, sign'⟩ := infinite_convert (p := .single) widened
    have back : (x.convert .double).convert .single = x := by
      refine eq_of_unsigned ((precision_convert _ _).trans single.symm) (sign'.trans sign) ?_
      rw [infinite_iff.mp narrowed, infinite_iff.mp infinite, precision_convert, single]
    have inside : ¬ (x.convert .double).Beyond := by
      rintro ⟨finite', -⟩
      simp [widened.1] at finite'
    refine ⟨sign, fun h => absurd h finite, fun _ => widened, ?_⟩
    rw [fit_single_of_not_beyond inside, back]

private theorem exists_single (h : x.precision = .single) : ∃ bits, x = single bits := by
  cases x with
  | single bits => exact ⟨bits, rfl⟩
  | double bits => cases h

private theorem exists_bits (h : x.precision = .double) : ∃ bits, x = double bits := by
  cases x with
  | single bits => cases h
  | double bits => exact ⟨bits, rfl⟩

private theorem magnitude_le_of_not_beyond (h : ¬ x.Beyond) (finite : x.finite = true) :
    x.magnitude ≤ Precision.single.worth (Precision.single.infinity - 1) := by
  have bounded := not_lt.mp fun beyond => h ⟨finite, beyond⟩
  rwa [abs_value, largestSingle_value] at bounded

end Floating

namespace Schema

open Floating

variable {precision : Precision} {order : ByteOrder} {x y : Floating} {e : Failure}

private theorem encode_float_of_fit (order : ByteOrder) (h : x.fit precision = .ok y) :
    (float precision order).encode (.float x) =
      .ok (order.arrange (toDigits precision.bytes y.pattern)).toArray := by
  have sized : (float precision order).Everywhere Sized := by
    cases precision <;> cases order <;> decide
  have few : precision.bytes < addressSpace := by cases precision <;> decide
  have image : (float precision order).image (.float x) =
      .ok (order.arrange (toDigits precision.bytes y.pattern)) := by
    change Floating.image precision order x = _
    rw [Floating.image, h]
    rfl
  refine (encode_eq_ok_iff sized).mpr ⟨_, image, ?_, rfl⟩
  rwa [ByteOrder.length_arrange, length_toDigits]

private theorem write_float_of_refused (order : ByteOrder) (h : x.fit precision = .error e)
    (offset : Nat) (buffer : Bytes) :
    ((float precision order).write (.float x) offset).run buffer = .error e buffer := by
  have opened : (float precision order).write (.float x) offset =
      x.write precision order offset := by
    rw [write]
    rfl
  rw [opened, Floating.write, h]
  rfl

private theorem encode_float_of_refused (order : ByteOrder) (h : x.fit precision = .error e) :
    (float precision order).encode (.float x) = .error e := by
  have announced : (float precision order).encodeSize (.float x) = .ok precision.bytes := by
    rw [encodeSize]
    rfl
  have stopped := write_float_of_refused order h 0 (Array.replicate precision.bytes 0)
  simp only [encode, announced, bind, Except.bind, stopped]

/-- A double is refused as a single exactly if it is finite and beyond every single, and otherwise
stored as a nearest single of its sign or as the infinity; a single is stored as a double of the
same value, and this double as the single again. -/
theorem float_conversions (order : ByteOrder) :
    (∀ bits : UInt64, ¬ (double bits).NotANumber →
      ((float .single order).encode (.float (double bits)) =
          Outcome.fail (.floatOutOfRange bits) ↔ (double bits).Beyond) ∧
      ((double bits).Beyond → ∀ offset buffer,
        ((float .single order).write (.float (double bits)) offset).run buffer =
          .error (.error (.floatOutOfRange bits)) buffer) ∧
      (¬ (double bits).Beyond → ∃ y : UInt32,
        (float .single order).encode (.float (double bits)) =
          .ok (order.arrange (toDigits 4 y.toNat)).toArray ∧
        (single y).negative = (double bits).negative ∧
        ((double bits).finite = true → (single y).finite = true ∧
          ∀ z : UInt32, (single z).finite = true →
            |(double bits).value - (single y).value| ≤ |(double bits).value - (single z).value|) ∧
        ((double bits).finite = false → (single y).Infinite))) ∧
    ∀ bits : UInt32, ¬ (single bits).NotANumber → ∃ z : UInt64,
      (float .double order).encode (.float (single bits)) =
        .ok (order.arrange (toDigits 8 z.toNat)).toArray ∧
      (double z).negative = (single bits).negative ∧
      ((single bits).finite = true → (double z).finite = true ∧
        (double z).value = (single bits).value) ∧
      ((single bits).finite = false → (double z).Infinite) ∧
      (float .single order).encode (.float (double z)) =
        .ok (order.arrange (toDigits 4 bits.toNat)).toArray := by
  refine ⟨fun bits number => ⟨?refused, fun beyond => ?unchanged, fun inside => ?stored⟩,
    fun bits number => ?widened⟩
  case refused =>
    constructor
    · intro failed
      by_contra inside
      have stored := encode_float_of_fit order (fit_single_of_not_beyond inside)
      rw [failed] at stored
      cases stored
    · exact fun beyond => encode_float_of_refused order (fit_single_of_beyond beyond)
  case unchanged => exact write_float_of_refused order (fit_single_of_beyond beyond)
  case stored =>
    obtain ⟨y, hy⟩ := exists_single (precision_convert .single (double bits))
    have stored := encode_float_of_fit order (fit_single_of_not_beyond inside)
    rw [hy] at stored
    by_cases finite : (double bits).finite = true
    · obtain ⟨finite', sign, nearest⟩ :=
        convert_nearest finite (magnitude_le_of_not_beyond inside finite)
      rw [hy] at finite' sign nearest
      exact ⟨y, stored, sign, fun _ => ⟨finite', fun z _ => nearest (single z) rfl⟩,
        fun h => by simp [finite] at h⟩
    · obtain ⟨infinite, sign⟩ := infinite_convert (p := .single) (infinite_of_number number finite)
      rw [hy] at infinite sign
      exact ⟨y, stored, sign, fun h => absurd h finite, fun _ => infinite⟩
  case widened =>
    obtain ⟨z, hz⟩ := exists_bits (precision_convert .double (single bits))
    obtain ⟨sign, value, infinite, back⟩ := convert_double (x := single bits) rfl number
    have stored := encode_float_of_fit order (fit_double (single bits))
    rw [hz] at sign value infinite back stored
    exact ⟨z, stored, sign, value, infinite, encode_float_of_fit order back⟩

/-- The power of two behind the singles is refused, and what lies between two of the least singles
becomes one of them. -/
theorem float_conversions_samples :
    (float .single .big).encode (.float (double 0x47f0000000000000)) =
      Outcome.fail (.floatOutOfRange 0x47f0000000000000) ∧
    (∃ y : UInt32, (float .single .big).encode (.float (double 0x36a8000000000000)) =
        .ok (ByteOrder.big.arrange (toDigits 4 y.toNat)).toArray ∧
      ∀ z : UInt32, (single z).finite = true →
        |(double 0x36a8000000000000).value - (single y).value| ≤
          |(double 0x36a8000000000000).value - (single z).value|) ∧
    ∃ z : UInt64, (float .double .big).encode (.float (single 1)) =
        .ok (ByteOrder.big.arrange (toDigits 8 z.toNat)).toArray ∧
      (double z).value = (single 1).value ∧
      (float .single .big).encode (.float (double z)) = .ok #[0, 0, 0, 1] := by
  obtain ⟨narrows, widens⟩ := float_conversions .big
  have large : (double 0x47f0000000000000).Beyond :=
    ⟨by decide, exceeds_largestSingle_iff.mp (by decide)⟩
  have small : ¬ (double 0x36a8000000000000).Beyond := fun h =>
    absurd (exceeds_largestSingle_iff.mpr h.2) (by decide)
  obtain ⟨refused, -, -⟩ := narrows 0x47f0000000000000 fun h => absurd h.1 (by decide)
  obtain ⟨-, -, stored⟩ := narrows 0x36a8000000000000 fun h => absurd h.1 (by decide)
  obtain ⟨y, hy, -, nearest, -⟩ := stored small
  obtain ⟨z, hz, -, exact, -, back⟩ := widens 1 fun h => absurd h.1 (by decide)
  exact ⟨refused.mpr large, ⟨y, hy, (nearest (by decide)).2⟩, z, hz, (exact (by decide)).2, back⟩

end Schema
end ByteSchema
