import ByteSchema.Text.Utf8
import Mathlib.Data.List.GetD
import Mathlib.Data.List.Nodup
import Mathlib.Tactic.Common

/-!
# Texts in ASCII

The characters of the three digit alphabets are single bytes.  A text of such characters and its
bytes determine each other, character by character.
-/
namespace ByteSchema.Utf8

/-- The byte of a character below 128. -/
def asciiByte (c : Char) : UInt8 := UInt8.ofNat c.toNat

/-- The character of a byte below 128. -/
def asciiChar (b : UInt8) : Char := Char.ofNat b.toNat

theorem toNat_asciiChar (b : UInt8) : (asciiChar b).toNat = b.toNat := by
  have valid : b.toNat.isValidChar := .inl (Nat.lt_trans b.toNat_lt (by decide))
  rw [asciiChar, Char.ofNat, dif_pos valid]
  rfl

@[simp] theorem asciiByte_asciiChar (b : UInt8) : asciiByte (asciiChar b) = b := by
  rw [asciiByte, toNat_asciiChar, UInt8.ofNat_toNat]

theorem toNat_asciiByte {c : Char} (ascii : c.toNat < 128) : (asciiByte c).toNat = c.toNat := by
  rw [asciiByte, UInt8.toNat_ofNat']
  omega

theorem asciiChar_asciiByte {c : Char} (ascii : c.toNat < 128) : asciiChar (asciiByte c) = c := by
  rw [asciiChar, toNat_asciiByte ascii, Char.ofNat_toNat]

theorem toBytes_ofList {cs : List Char} (ascii : ∀ c ∈ cs, c.toNat < 128) :
    toBytes (String.ofList cs) = cs.map asciiByte := by
  rw [toBytes, String.toByteArray_ofList]
  induction cs with
  | nil => rfl
  | cons c cs ih =>
    have small : c.toNat < 128 := ascii c List.mem_cons_self
    have single : c.utf8Size = 1 :=
      Char.utf8Size_eq_one_iff.mpr (UInt32.le_iff_toNat_le.mpr (Nat.le_of_lt_succ small))
    have tail := ih fun d hd => ascii d (List.mem_cons_of_mem c hd)
    rw [List.utf8Encode_cons, List.utf8Encode_singleton, String.utf8EncodeChar_eq_singleton single,
      ByteArray.data_append, Array.toList_append, tail, List.map_cons]
    rfl

/-- A text is spelled by ASCII characters whose bytes are its bytes. -/
theorem ofList_eq_iff {cs : List Char} {text : String} (ascii : ∀ c ∈ cs, c.toNat < 128) :
    String.ofList cs = text ↔ cs.map asciiByte = toBytes text := by
  constructor
  · rintro rfl
    exact (toBytes_ofList ascii).symm
  · intro h
    have back := toText_toBytes (String.ofList cs)
    rw [toBytes_ofList ascii, h, toText_toBytes] at back
    exact (Except.ok.inj back).symm

theorem toList_eq {text : String} (ascii : ∀ b ∈ toBytes text, b.toNat < 128) :
    text.toList = (toBytes text).map asciiChar := by
  have chars : ∀ c ∈ (toBytes text).map asciiChar, c.toNat < 128 := by
    intro c hc
    obtain ⟨b, hb, rfl⟩ := List.mem_map.mp hc
    rw [toNat_asciiChar]
    exact ascii b hb
  have spelled : String.ofList ((toBytes text).map asciiChar) = text := by
    refine (ofList_eq_iff chars).mpr ?_
    rw [List.map_map]
    exact (List.map_congr_left fun b _ => asciiByte_asciiChar b).trans (List.map_id _)
  conv_lhs => rw [← spelled]
  exact String.toList_ofList

theorem getD_lt {alphabet : List Char} {fallback : Char} (ascii : ∀ c ∈ alphabet, c.toNat < 128)
    (outside : fallback.toNat < 128) (v : Nat) : (alphabet.getD v fallback).toNat < 128 := by
  by_cases inside : v < alphabet.length
  · rw [List.getD_eq_getElem _ _ inside]
    exact ascii _ (List.getElem_mem inside)
  · rw [List.getD_eq_default _ _ (by omega)]
    exact outside

/-- Looking a byte up in an alphabet of ASCII characters, none of which stands there twice. -/
theorem idxOf?_asciiChar_eq_some_iff {alphabet : List Char} (distinct : alphabet.Nodup)
    (ascii : ∀ c ∈ alphabet, c.toNat < 128) {b : UInt8} {v : Nat} {fallback : Char} :
    alphabet.idxOf? (asciiChar b) = some v ↔
      v < alphabet.length ∧ asciiByte (alphabet.getD v fallback) = b := by
  rw [List.idxOf?_eq_some_iff]
  constructor
  · rintro ⟨inside, found, _⟩
    rw [List.getD_eq_getElem _ _ inside, found, asciiByte_asciiChar]
    exact ⟨inside, rfl⟩
  · rintro ⟨inside, found⟩
    rw [List.getD_eq_getElem _ _ inside] at found
    have back : alphabet[v] = asciiChar b := by
      rw [← found, asciiChar_asciiByte (ascii _ (List.getElem_mem inside))]
    refine ⟨inside, back, fun j hj same => ?_⟩
    have equal := (distinct.getElem_inj_iff).mp (same.trans back.symm)
    omega

theorem toList_toLower (text : String) : text.toLower.toList = text.toList.map Char.toLower :=
  String.toList_map

theorem toLower_of_small {c : Char} (small : c.isUpper = false) : c.toLower = c :=
  dif_neg (of_decide_eq_false small)

theorem lt_of_toLower_lt {c : Char} (ascii : c.toLower.toNat < 128) : c.toNat < 128 := by
  cases capital : c.isUpper with
  | false => rwa [toLower_of_small capital] at ascii
  | true =>
    have most : c.val ≤ 'Z'.val := (of_decide_eq_true capital).2
    have bound : c.toNat ≤ 90 := UInt32.le_iff_toNat_le.mp most
    omega

end ByteSchema.Utf8
