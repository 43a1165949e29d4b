import ByteSchema.Message
import ByteSchema.Proofs.FixedSizes
import ByteSchema.Proofs.FramedSlots
import ByteSchema.Proofs.Splicing
import Mathlib.Data.Int.ModEq

/-!
# Words as bit vectors

The bytes of a word are those of the bit vector of the integer, so they are its two's complement,
and two integers have the same bytes exactly when they are congruent.  An integer of the range is
read back as it is; one that was written with the other sign is read as what is congruent to it.
-/
namespace ByteSchema

open Bytes

/-- The bytes of the bit vector of an integer, least significant first. -/
def twosComplement (width : Nat) (v : Int) : List UInt8 :=
  List.ofFn fun i : Fin width =>
    UInt8.ofBitVec ((BitVec.ofInt (8 * width) v).extractLsb' (8 * i) 8)

/-- The smallest integer of so many bits. -/
def lowest (signed : Bool) (bits : Nat) : Int := if signed then -2 ^ (bits - 1) else 0

/-- The largest integer of so many bits. -/
def highest (signed : Bool) (bits : Nat) : Int :=
  if signed then 2 ^ (bits - 1) - 1 else 2 ^ bits - 1

theorem span_eq_two_pow (width : Nat) : span width = 2 ^ (8 * width) :=
  (Nat.pow_mul 2 8 width).symm

theorem getElem?_toDigits {width i : Nat} (n : Nat) (h : i < width) :
    (toDigits width n)[i]? = some (UInt8.ofNat (n / 256 ^ i)) := by
  induction width generalizing n i with
  | zero => cases h
  | succ width ih =>
    cases i with
    | zero => simp [toDigits]
    | succ i =>
      rw [toDigits, List.getElem?_cons_succ, ih _ (Nat.lt_of_succ_lt_succ h),
        Nat.div_div_eq_div_mul, Nat.pow_succ']

/-- The digits of the residue are the bytes of the bit vector. -/
theorem toDigits_emod (width : Nat) (v : Int) :
    toDigits width (v % (span width : Nat)).toNat = twosComplement width v := by
  apply List.ext_getElem?
  intro i
  by_cases inside : i < width
  · rw [getElem?_toDigits _ inside, twosComplement, List.getElem?_ofFn, dif_pos inside]
    have byte : UInt8.ofNat ((v % (span width : Nat)).toNat / 256 ^ i) =
        UInt8.ofBitVec ((BitVec.ofInt (8 * width) v).extractLsb' (8 * i) 8) := by
      apply UInt8.toNat_inj.mp
      have place : 256 ^ i = 2 ^ (8 * i) := span_eq_two_pow i
      rw [UInt8.toNat_ofNat', UInt8.toNat_ofBitVec, BitVec.extractLsb'_toNat, BitVec.toNat_ofInt,
        Nat.shiftRight_eq_div_pow, place, span_eq_two_pow]
    rw [byte]
  · rw [List.getElem?_eq_none (by rw [length_toDigits]; omega),
      List.getElem?_eq_none (by rw [twosComplement, List.length_ofFn]; omega)]

namespace IntFormat

variable {width : Width} {order : ByteOrder} {signed : Bool} {u v : Int}

theorem wordBytes_eq (width : Width) (order : ByteOrder) (v : Int) :
    wordBytes width order v = order.arrange (twosComplement width.bytes v) := by
  rw [wordBytes, toDigits_emod]

theorem min_word : (word signed width order).min = lowest signed (8 * width.bytes) := by
  cases signed <;> cases width <;> rfl

theorem max_word : (word signed width order).max = highest signed (8 * width.bytes) := by
  cases signed <;> cases width <;> rfl

theorem wordBytes_eq_iff (order : ByteOrder) :
    wordBytes width order u = wordBytes width order v ↔ u ≡ v [ZMOD (span width.bytes : Nat)] := by
  have positive := span_pos width.bytes
  constructor
  · intro h
    have digits := congrArg (fun bs => ofDigits (order.arrange bs)) h
    simp only [wordBytes, ByteOrder.arrange_arrange, ofDigits_toDigits] at digits
    have residue (x : Int) :
        (((x % (span width.bytes : Nat)).toNat % span width.bytes : Nat) : Int) =
          x % (span width.bytes : Nat) := by
      have low := Int.emod_nonneg x (show ((span width.bytes : Nat) : Int) ≠ 0 by omega)
      have high := Int.emod_lt_of_pos x (show 0 < ((span width.bytes : Nat) : Int) by omega)
      rw [Nat.mod_eq_of_lt (by omega), Int.toNat_of_nonneg low]
    rw [Int.ModEq, ← residue u, ← residue v, digits]
  · intro h
    rw [wordBytes, wordBytes, h]

end IntFormat

namespace Schema

open IntFormat

variable {width : Width} {order : ByteOrder} {signed : Bool} {u v : Int} {bytes out : Bytes}
  {offset : Nat}

/-- The integer fits in the bits of the word. -/
def InWord (signed : Bool) (width : Width) (v : Int) : Prop :=
  lowest signed (8 * width.bytes) ≤ v ∧ v ≤ highest signed (8 * width.bytes)

theorem inWord_iff (order : ByteOrder) :
    InWord signed width v ↔
      (IntFormat.word signed width order).min ≤ v ∧
        v ≤ (IntFormat.word signed width order).max := by
  rw [min_word, max_word, InWord]

private theorem image_word_eq_ok_iff {bs : List UInt8} :
    (int (.word signed width order)).image (.int v) = .ok bs ↔
      InWord signed width v ∧ bs = wordBytes width order v := by
  have image : (int (.word signed width order)).image (.int v) =
      IntFormat.image (.word signed width order) v := rfl
  rw [image, IntFormat.image, inWord_iff order, Outcome.bind_eq_ok]
  simp only [checkRange_eq_ok_iff, exists_const, Outcome.pure_eq_ok]
  exact and_congr_right fun _ => eq_comm

private theorem encode_word_eq_ok_iff :
    (int (.word signed width order)).encode (.int v) = .ok out ↔
      InWord signed width v ∧ out = (wordBytes width order v).toArray := by
  have sized : (int (.word signed width order)).Everywhere Sized := by
    cases signed <;> cases width <;> cases order <;> decide
  have few : width.bytes < addressSpace := by cases width <;> decide
  rw [encode_eq_ok_iff sized]
  simp only [image_word_eq_ok_iff]
  constructor
  · rintro ⟨_, ⟨range, rfl⟩, -, rfl⟩
    exact ⟨range, rfl⟩
  · rintro ⟨range, rfl⟩
    exact ⟨_, ⟨range, rfl⟩, by rwa [length_wordBytes], rfl⟩

private theorem wordBytes_inj (hu : InWord signed width u) (hv : InWord signed width v) :
    wordBytes width order u = wordBytes width order v ↔ u = v := by
  constructor
  · intro h
    have hu := (inWord_iff order).mp hu
    have hv := (inWord_iff order).mp hv
    rw [← ofWordBytes_wordBytes hu.1 hu.2, h, ofWordBytes_wordBytes hv.1 hv.2]
  · rintro rfl
    rfl

private theorem write_word (signed : Bool) (width : Width) (order : ByteOrder) (v : Int)
    (offset : Nat) :
    (int (.word signed width order)).write (.int v) offset = (do
      (IntFormat.word signed width order).checkRange v
      Writing.put offset (wordBytes width order v)) := by
  rw [write]
  rfl

private theorem write_word_run (range : InWord signed width v) (buffer : Bytes)
    (room : offset + width.bytes < addressSpace) :
    ((int (.word signed width order)).write (.int v) offset).run buffer =
      .ok (offset + width.bytes) (buffer.splice offset (wordBytes width order v)) := by
  have checked := checkRange_eq_ok_iff (u := ()).mpr ((inWord_iff order).mp range)
  have run := Writing.run_put offset (wordBytes width order v) buffer
  rw [length_wordBytes, if_pos room] at run
  rw [write_word, checked]
  exact run

private theorem write_word_refused (outside : ¬ InWord signed width v) (buffer : Bytes) :
    ((int (.word signed width order)).write (.int v) offset).run buffer =
      .error (.error (.intOutOfRange (IntFormat.word signed width order).name v
        (lowest signed (8 * width.bytes)) (highest signed (8 * width.bytes)))) buffer := by
  rw [inWord_iff order] at outside
  rw [write_word, checkRange, if_neg outside, min_word, max_word]
  rfl

/-- A window holds the integer that its bytes stand for, and no other integer of the range. -/
private theorem read_word (signed : Bool) (width : Width) (order : ByteOrder)
    (small : bytes.size < addressSpace)
    (inside : offset + width.bytes ≤ bytes.size) :
    ∃ v, InWord signed width v ∧
      (int (.word signed width order)).read bytes offset =
        ⟨[], .ok (.int v, offset + width.bytes)⟩ ∧
      wordBytes width order v = (bytes.extract offset (offset + width.bytes)).toList := by
  have spans := Spans.extract (Nat.le_add_right offset width.bytes) inside
    (.inr (Nat.lt_of_le_of_lt inside small))
  have length : (bytes.extract offset (offset + width.bytes)).toList.length = width.bytes := by
    rw [Array.length_toList, Array.size_extract]
    omega
  generalize (bytes.extract offset (offset + width.bytes)).toList = bs at spans length ⊢
  have range : InWord signed width (ofWordBytes signed order bs) :=
    (inWord_iff order).mpr (ofWordBytes_range length)
  have back : wordBytes width order (ofWordBytes signed order bs) = bs :=
    wordBytes_ofWordBytes length
  refine ⟨_, range, ?_, back⟩
  exact read_int_eq_ok_iff.mpr ⟨rfl, _, rfl, _, image_word_eq_ok_iff.mpr ⟨range, back.symm⟩, spans,
    Nat.lt_of_le_of_lt inside small⟩

/-- The bytes of an integer hold the one integer of the other sign that is congruent to it. -/
private theorem decode_word (other : Bool) (width : Width) (order : ByteOrder) (v : Int) :
    ∃ u, (int (.word other width order)).decode (wordBytes width order v).toArray =
        ⟨[], .ok (.int u)⟩ ∧
      ∀ t, InWord other width t ∧ t ≡ v [ZMOD 2 ^ (8 * width.bytes)] ↔ t = u := by
  have size : (wordBytes width order v).toArray.size = width.bytes := length_wordBytes width order v
  have small : (wordBytes width order v).toArray.size < addressSpace := by
    rw [size]
    cases width <;> decide
  obtain ⟨u, range, hread, hbytes⟩ := read_word other width order small
    (Nat.le_of_eq (by rw [size, Nat.zero_add]))
  rw [Nat.zero_add, ← size, Array.extract_size, List.toList_toArray] at hbytes
  rw [Nat.zero_add, ← size] at hread
  refine ⟨u, decode_of_read (by rw [Schema.size]) hread, fun t => ?_⟩
  have modulus : (2 : Int) ^ (8 * width.bytes) = (span width.bytes : Nat) := by
    rw [span_eq_two_pow]
    rfl
  rw [modulus, ← wordBytes_eq_iff order, ← hbytes]
  constructor
  · rintro ⟨range', same⟩
    exact (wordBytes_inj range' range).mp same
  · rintro rfl
    exact ⟨range, rfl⟩

/-- A word takes the integers of its bits, each as its two's complement, and a window is read as the
one integer that is written so; with the other sign, as what is congruent to it. -/
theorem word_exact (signed : Bool) (width : Width) (order : ByteOrder) :
    (∀ v offset buffer,
      (InWord signed width v → offset + width.bytes < addressSpace → ∃ after,
        ((int (.word signed width order)).write (.int v) offset).run buffer =
          .ok (offset + width.bytes) after ∧
        Splices buffer offset (order.arrange (twosComplement width.bytes v)).toArray after) ∧
      (¬ InWord signed width v → ∃ cause,
        ((int (.word signed width order)).write (.int v) offset).run buffer =
          .error (.error cause) buffer ∧
        cause = .intOutOfRange ((if signed then "i" else "u") ++ toString (8 * width.bytes)) v
          (lowest signed (8 * width.bytes)) (highest signed (8 * width.bytes)) ∧
        cause.message = outOfRange ((if signed then "i" else "u") ++ toString (8 * width.bytes))
          (toString v) (toString (lowest signed (8 * width.bytes)))
          (toString (highest signed (8 * width.bytes))))) ∧
    (∀ bytes : Bytes, bytes.size < addressSpace → ∀ offset,
      offset + width.bytes ≤ bytes.size → ∃ v, InWord signed width v ∧
        (int (.word signed width order)).read bytes offset =
          ⟨[], .ok (.int v, offset + width.bytes)⟩ ∧
        ∀ u, (int (.word signed width order)).encode (.int u) =
          .ok (bytes.extract offset (offset + width.bytes)) ↔ u = v) ∧
    ∀ v, InWord signed width v → ∃ bytes u,
      (int (.word signed width order)).encode (.int v) = .ok bytes ∧
      (int (.word (!signed) width order)).decode bytes = ⟨[], .ok (.int u)⟩ ∧
      ∀ t, InWord (!signed) width t ∧ t ≡ v [ZMOD 2 ^ (8 * width.bytes)] ↔ t = u := by
  refine ⟨fun v offset buffer => ⟨fun range room => ?written, fun outside => ?refused⟩, ?windows,
    ?reinterpreted⟩
  case written =>
    refine ⟨_, write_word_run range buffer room, ?_⟩
    rw [wordBytes_eq]
    exact splices_splice _ _ _
  case refused => exact ⟨_, write_word_refused outside buffer, rfl, rfl⟩
  case windows =>
    intro bytes small offset inside
    obtain ⟨v, range, hread, hbytes⟩ := read_word signed width order small inside
    refine ⟨v, range, hread, fun u => ?_⟩
    rw [encode_word_eq_ok_iff, ← Array.toList_inj, List.toList_toArray, ← hbytes]
    constructor
    · rintro ⟨range', same⟩
      exact (wordBytes_inj range' range).mp same.symm
    · rintro rfl
      exact ⟨range, rfl⟩
  case reinterpreted =>
    intro v range
    obtain ⟨u, found, only⟩ := decode_word (!signed) width order v
    exact ⟨_, u, encode_word_eq_ok_iff.mpr ⟨range, rfl⟩, found, only⟩

theorem word_exact_two_bytes :
    (∃ after, ((int (.word true .two .big)).write (.int (-2)) 1).run #[7] = .ok 3 after ∧
      Splices #[7] 1 #[255, 254] after) ∧
    (∃ cause, ((int (.word true .two .big)).write (.int 40000) 1).run #[7] =
        .error (.error cause) #[7] ∧
      cause.message = "i16 out of range: 40000 not in [-32768, 32767]") ∧
    (int (.word true .two .big)).read #[0, 255, 254, 9] 1 = ⟨[], .ok (.int (-2), 3)⟩ ∧
    ∀ t, InWord false .two t ∧ t ≡ -2 [ZMOD 65536] ↔ t = 65534 := by
  have inside : InWord true .two (-2) := ⟨by decide, by decide⟩
  have outside : ¬ InWord true .two 40000 := fun h => absurd h.2 (by decide)
  obtain ⟨writes, windows, reinterpreted⟩ := word_exact true .two .big
  obtain ⟨after, written, spliced⟩ := (writes (-2) 1 #[7]).1 inside (by decide)
  obtain ⟨cause, refused, -, message⟩ := (writes 40000 1 #[7]).2 outside
  obtain ⟨v, -, hread, only⟩ := windows #[0, 255, 254, 9] (by decide) 1 (by decide)
  obtain ⟨bytes, u, hencode, hdecode, congruent⟩ := reinterpreted (-2) inside
  cases (only (-2)).mp rfl
  cases hencode
  cases hdecode
  exact ⟨⟨after, written, spliced⟩, ⟨cause, refused, message⟩, hread, congruent⟩

end Schema
end ByteSchema
