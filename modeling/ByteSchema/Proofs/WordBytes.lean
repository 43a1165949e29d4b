import ByteSchema.Number.Integer
import ByteSchema.Number.Floating
import Mathlib.Tactic.Common

/-!
# Words and floating point numbers as bytes

A word of given width takes exactly the integers of its range, each to a byte string of its own;
and a floating point number of the precision that it is stored in keeps its bits.
-/
namespace ByteSchema

theorem span_pos (width : Nat) : 0 < span width := Nat.pow_pos (by decide)

namespace IntFormat

theorem checkRange_eq_ok_iff {format : IntFormat} {v : Int} {u : Unit} :
    format.checkRange v = .ok u ↔ format.min ≤ v ∧ v ≤ format.max := by
  unfold checkRange Outcome.fail
  split <;> simp_all

@[simp] theorem length_wordBytes (width : Width) (order : ByteOrder) (v : Int) :
    (wordBytes width order v).length = width.bytes := by
  rw [wordBytes, ByteOrder.length_arrange, length_toDigits]

/-- The number of words of a width is even, so that half of them can be negative. -/
private theorem exists_half (width : Width) : ∃ half, span width.bytes = 2 * half ∧ 0 < half := by
  have h : ∃ n, width.bytes = n + 1 := by
    cases width <;> exact ⟨_, rfl⟩
  obtain ⟨n, hn⟩ := h
  refine ⟨128 * span n, ?_, ?_⟩
  · rw [hn, span_succ]
    omega
  · have := span_pos n
    omega

theorem wordBytes_ofWordBytes {width : Width} {signed : Bool} {order : ByteOrder} {bs : List UInt8}
    (h : bs.length = width.bytes) : wordBytes width order (ofWordBytes signed order bs) = bs := by
  have small := ofDigits_lt (order.arrange bs)
  rw [ByteOrder.length_arrange, h] at small
  have digits : (ofWordBytes signed order bs % (span width.bytes : Nat)).toNat =
      ofDigits (order.arrange bs) := by
    unfold ofWordBytes
    rw [h]
    dsimp only
    split
    · rw [Int.sub_emod_right, Int.emod_eq_of_lt (by omega) (by omega), Int.toNat_natCast]
    · rw [Int.emod_eq_of_lt (by omega) (by omega), Int.toNat_natCast]
  have back := toDigits_ofDigits (order.arrange bs)
  rw [ByteOrder.length_arrange, h] at back
  rw [wordBytes, digits, back, ByteOrder.arrange_arrange]

/-- Every byte string of a word's width is an integer of its range. -/
theorem ofWordBytes_range {width : Width} {signed : Bool} {order : ByteOrder} {bs : List UInt8}
    (h : bs.length = width.bytes) :
    (word signed width order).min ≤ ofWordBytes signed order bs ∧
      ofWordBytes signed order bs ≤ (word signed width order).max := by
  have small := ofDigits_lt (order.arrange bs)
  rw [ByteOrder.length_arrange, h] at small
  obtain ⟨half, even, _⟩ := exists_half width
  unfold ofWordBytes
  cases signed with
  | false =>
    simp only [min, max, Bool.false_eq_true, false_and, if_false]
    omega
  | true =>
    simp only [min, max, h, true_and]
    split <;> omega

theorem ofWordBytes_wordBytes {width : Width} {signed : Bool} {order : ByteOrder} {v : Int}
    (low : (word signed width order).min ≤ v) (high : v ≤ (word signed width order).max) :
    ofWordBytes signed order (wordBytes width order v) = v := by
  obtain ⟨half, even, positive⟩ := exists_half width
  have digits : ofDigits (order.arrange (wordBytes width order v)) =
      (v % (span width.bytes : Nat)).toNat := by
    rw [wordBytes, ByteOrder.arrange_arrange, ofDigits_toDigits, Nat.mod_eq_of_lt]
    have := Int.emod_lt_of_pos v (show (0 : Int) < (span width.bytes : Nat) by omega)
    omega
  unfold ofWordBytes
  rw [digits, length_wordBytes]
  cases signed with
  | false =>
    simp only [min, max] at low high
    simp only [Bool.false_eq_true, false_and, if_false]
    rw [Int.emod_eq_of_lt low (by omega)]
    omega
  | true =>
    simp only [min, max] at low high
    by_cases negative : v < 0
    · have shifted : v % (span width.bytes : Nat) = v + (span width.bytes : Nat) := by
        rw [← Int.add_emod_right, Int.emod_eq_of_lt (by omega) (by omega)]
      rw [shifted, if_pos ⟨rfl, by omega⟩]
      omega
    · rw [Int.emod_eq_of_lt (by omega) (by omega), if_neg (by omega)]
      omega

end IntFormat

namespace Floating

@[simp] theorem precision_ofPattern (p : Precision) (n : Nat) : (ofPattern p n).precision = p := by
  cases p <;> rfl

theorem pattern_ofPattern {p : Precision} {n : Nat} (h : n < span p.bytes) :
    (ofPattern p n).pattern = n := by
  cases p with
  | single => exact UInt32.toNat_ofNat_of_lt h
  | double => exact UInt64.toNat_ofNat_of_lt h

theorem ofPattern_pattern (x : Floating) : ofPattern x.precision x.pattern = x := by
  cases x with
  | single bits => exact congrArg single (UInt32.ofNat_toNat)
  | double bits => exact congrArg double (UInt64.ofNat_toNat)

theorem pattern_lt (x : Floating) : x.pattern < span x.precision.bytes := by
  cases x with
  | single bits => exact bits.toNat_lt
  | double bits => exact bits.toNat_lt

/-- No finite single lies beyond the largest one. -/
theorem not_exceeds_largestSingle {x : Floating} (h : x.precision = .single)
    (finite : x.finite = true) : x.exceeds largestSingle = false := by
  have top : x.exponent < 255 := by
    simpa [Floating.finite, h, Precision.topExponent] using finite
  have low : x.fraction < 8388608 := by
    rw [fraction, h]
    exact Nat.mod_lt _ (by decide)
  have significand : x.significand ≤ 16777215 := by
    have hidden : x.precision.hiddenBit = 8388608 := by rw [h]; rfl
    unfold Floating.significand
    rw [hidden]
    split <;> omega
  have power : x.power ≤ 104 := by
    simp only [Floating.power, h, Precision.leastPower]
    omega
  have largest : largestSingle.significand = 16777215 := by decide
  have largestPower : largestSingle.power = 104 := by decide
  have none : (x.power - largestSingle.power).toNat = 0 := by omega
  rw [exceeds, none, largest, decide_eq_false_iff_not, Nat.not_lt, Nat.shiftLeft_zero]
  exact Nat.le_trans significand (Nat.le_shiftLeft)

/-- A number of the stored precision is stored as it is. -/
theorem fit_self (x : Floating) : x.fit x.precision = .ok x := by
  have same : x.convert x.precision = x := if_pos rfl
  unfold fit
  rw [same]
  refine if_neg ?_
  rintro ⟨single, finite, beyond⟩
  rw [not_exceeds_largestSingle single finite] at beyond
  cases beyond

end Floating
end ByteSchema
