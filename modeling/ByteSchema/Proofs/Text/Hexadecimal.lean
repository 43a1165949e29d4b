import ByteSchema.Proofs.StepInversion
import ByteSchema.Proofs.Text.Ascii
import ByteSchema.Text.Base16
import Mathlib.Tactic.IntervalCases

/-!
# Hexadecimal texts and their bytes

A text is read exactly when its small letters are what its bytes are written as.
-/
namespace ByteSchema.Base16

open Utf8

/-- The small form of the character of a byte. -/
def lower (b : UInt8) : Char := (asciiChar b).toLower

private theorem toNat_lower (b : UInt8) :
    (lower b).toNat = if 65 ≤ b.toNat ∧ b.toNat ≤ 90 then b.toNat + 32 else b.toNat := by
  have value := toNat_asciiChar b
  have low : 'A'.toNat = 65 := rfl
  have high : 'Z'.toNat = 90 := rfl
  have gap : ('a'.val - 'A'.val).toNat = 32 := rfl
  by_cases capital : 65 ≤ b.toNat ∧ b.toNat ≤ 90
  · have inside : (asciiChar b).val ≥ 'A'.val ∧ (asciiChar b).val ≤ 'Z'.val := by
      simp only [ge_iff_le, UInt32.le_iff_toNat_le, Char.toNat_val]
      omega
    have small : lower b = _ := dif_pos inside
    rw [if_pos capital, small]
    change ((asciiChar b).val + ('a'.val - 'A'.val)).toNat = _
    rw [UInt32.toNat_add, gap, Char.toNat_val]
    omega
  · have outside : ¬ ((asciiChar b).val ≥ 'A'.val ∧ (asciiChar b).val ≤ 'Z'.val) := by
      simp only [ge_iff_le, UInt32.le_iff_toNat_le, Char.toNat_val]
      omega
    have same : lower b = asciiChar b := dif_neg outside
    rw [if_neg capital, same, value]

private theorem toNat_numeral {n : Nat} (h : n < 16) :
    (numeral n).toNat = if n < 10 then 48 + n else 87 + n := by
  interval_cases n <;> rfl

theorem numeral_lt {n : Nat} (h : n < 16) : (numeral n).toNat < 128 := by
  rw [toNat_numeral h]
  split <;> omega

/-- A digit is a numeral in either case. -/
theorem digit_eq_ok_iff {b : UInt8} {n : Nat} :
    digit b = .ok n ↔ n < 16 ∧ numeral n = lower b := by
  have spelled (h : n < 16) : numeral n = lower b ↔
      (if n < 10 then 48 + n else 87 + n) =
        if 65 ≤ b.toNat ∧ b.toNat ≤ 90 then b.toNat + 32 else b.toNat := by
    rw [← Char.toNat_inj, toNat_numeral h, toNat_lower]
  rw [and_congr_right spelled]
  unfold digit
  grind

/-- Either half of a byte is a digit. -/
private theorem halves_lt (b : UInt8) : b.toNat / 16 < 16 ∧ b.toNat % 16 < 16 := by
  have := b.toNat_lt
  omega

/-- Nothing but numerals is written. -/
private theorem encode_numerals (bs : List UInt8) : ∀ c ∈ encode bs, ∃ n < 16, numeral n = c := by
  induction bs with
  | nil => simp [encode]
  | cons b bs ih =>
    obtain ⟨high, low⟩ := halves_lt b
    simpa [encode] using ⟨⟨_, high, rfl⟩, ⟨_, low, rfl⟩, ih⟩

theorem encode_lt (bs : List UInt8) : ∀ c ∈ encode bs, c.toNat < 128 := by
  intro c hc
  obtain ⟨n, small, rfl⟩ := encode_numerals bs c hc
  exact numeral_lt small

private theorem numeral_small {n : Nat} (h : n < 16) : (numeral n).isUpper = false := by
  interval_cases n <;> decide

/-- No capital is ever written. -/
theorem encode_small (bs : List UInt8) : ∀ c ∈ encode bs, c.isUpper = false := by
  intro c hc
  obtain ⟨n, small, rfl⟩ := encode_numerals bs c hc
  exact numeral_small small

private theorem length_encode (bs : List UInt8) : (encode bs).length = 2 * bs.length := by
  induction bs with
  | nil => rfl
  | cons b bs ih =>
    rw [encode, List.length_cons, List.length_cons, ih, List.length_cons]
    omega

private theorem numeral_inj {m n : Nat} (hm : m < 16) (hn : n < 16) :
    numeral m = numeral n ↔ m = n := by
  rw [← Char.toNat_inj, toNat_numeral hm, toNat_numeral hn]
  grind

/-- Two digits, and the byte that they are put together to. -/
private theorem encode_singleton_eq_iff {x : UInt8} {high low : Nat} (hhigh : high < 16)
    (hlow : low < 16) :
    encode [x] = [numeral high, numeral low] ↔ x = UInt8.ofNat (16 * high + low) := by
  obtain ⟨upper, lower⟩ := halves_lt x
  simp only [encode, List.cons.injEq, and_true, numeral_inj upper hhigh, numeral_inj lower hlow,
    ← UInt8.toNat_inj, UInt8.toNat_ofNat']
  omega

private theorem decodeAfter_eq_ok_iff {done text out : List UInt8} :
    decodeAfter done text = .ok out ↔
      ∃ bs, out = done.reverse ++ bs ∧ encode bs = text.map lower := by
  fun_induction decodeAfter done text with
  | case1 done a b rest ih =>
    simp only [Outcome.bind_eq_ok, digit_eq_ok_iff, ih]
    constructor
    · rintro ⟨high, ⟨hhigh, first⟩, low, ⟨hlow, second⟩, bs, rfl, tail⟩
      have pair := (encode_singleton_eq_iff hhigh hlow).mpr rfl
      refine ⟨UInt8.ofNat (16 * high + low) :: bs, by simp, ?_⟩
      rw [List.map_cons, List.map_cons, ← first, ← second, ← tail]
      exact congrArg (· ++ encode bs) pair
    · rintro ⟨bs, rfl, spelled⟩
      cases bs with
      | nil => cases spelled
      | cons x bs =>
        obtain ⟨hhigh, hlow⟩ := halves_lt x
        simp only [encode, List.map_cons, List.cons.injEq] at spelled
        obtain ⟨first, second, tail⟩ := spelled
        have whole := (encode_singleton_eq_iff hhigh hlow).mp rfl
        exact ⟨_, ⟨hhigh, first⟩, _, ⟨hlow, second⟩, bs, by simp [← whole], tail⟩
  | case2 done b =>
    simp only [reduceCtorEq, false_iff]
    rintro ⟨bs, _, spelled⟩
    have even := length_encode bs
    rw [spelled, List.length_map, List.length_singleton] at even
    omega
  | case3 done =>
    simp only [Except.ok.injEq]
    constructor
    · rintro rfl
      exact ⟨[], by simp, rfl⟩
    · rintro ⟨bs, rfl, spelled⟩
      cases bs with
      | nil => rw [List.append_nil]
      | cons x bs => cases spelled

theorem decode_eq_ok_iff {text bs : List UInt8} :
    decode text = .ok bs ↔ encode bs = text.map lower := by
  rw [decode]
  by_cases odd : text.length % 2 = 1
  · rw [if_pos odd]
    simp only [reduceCtorEq, false_iff]
    intro spelled
    have even := length_encode bs
    rw [spelled, List.length_map] at even
    omega
  · simp [if_neg odd, decodeAfter_eq_ok_iff]

theorem ascii_of_decode {text bs : List UInt8} (h : decode text = .ok bs) :
    ∀ b ∈ text, b.toNat < 128 := by
  intro b hb
  have small := encode_lt bs (lower b) (decode_eq_ok_iff.mp h ▸ List.mem_map_of_mem hb)
  rw [toNat_lower] at small
  split at small <;> omega

private theorem isHexDigit_iff {b : UInt8} :
    (asciiChar b).isHexDigit = true ↔ ∃ n < 16, numeral n = lower b := by
  have value := toNat_asciiChar b
  simp only [← digit_eq_ok_iff]
  simp only [Char.isHexDigit, Char.isDigit, Bool.or_eq_true, Bool.and_eq_true, decide_eq_true_eq,
    ge_iff_le, UInt32.le_iff_toNat_le, Char.toNat_val, value]
  change ((48 ≤ b.toNat ∧ b.toNat ≤ 57) ∨ 97 ≤ b.toNat ∧ b.toNat ≤ 102) ∨
    65 ≤ b.toNat ∧ b.toNat ≤ 70 ↔ _
  simp only [digit]
  split_ifs <;> simp <;> omega

private theorem exists_encode_eq {cs : List Char} (even : cs.length % 2 = 0)
    (numerals : ∀ c ∈ cs, ∃ n < 16, numeral n = c) : ∃ bs, encode bs = cs := by
  match cs with
  | [] => exact ⟨[], rfl⟩
  | [_] => cases even
  | a :: b :: rest =>
    obtain ⟨high, hhigh, rfl⟩ := numerals a (by simp)
    obtain ⟨low, hlow, rfl⟩ := numerals b (by simp)
    have fewer : rest.length % 2 = 0 := by simpa [Nat.add_assoc] using even
    obtain ⟨bs, rfl⟩ := exists_encode_eq fewer fun c hc => numerals c (by simp [hc])
    have pair := (encode_singleton_eq_iff hhigh hlow).mpr rfl
    exact ⟨UInt8.ofNat (16 * high + low) :: bs, congrArg (· ++ encode bs) pair⟩

/-- Any even number of digits is read. -/
theorem exists_decode_eq_ok_iff {text : List UInt8} :
    (∃ bs, decode text = .ok bs) ↔
      text.length % 2 = 0 ∧ ∀ b ∈ text, (asciiChar b).isHexDigit = true := by
  simp only [decode_eq_ok_iff, isHexDigit_iff]
  constructor
  · rintro ⟨bs, spelled⟩
    have even := length_encode bs
    rw [spelled, List.length_map] at even
    exact ⟨by omega, fun b hb => encode_numerals bs _ (spelled ▸ List.mem_map_of_mem hb)⟩
  · rintro ⟨even, numerals⟩
    refine exists_encode_eq (by rwa [List.length_map]) fun c hc => ?_
    obtain ⟨b, hb, rfl⟩ := List.mem_map.mp hc
    exact numerals b hb

end ByteSchema.Base16
