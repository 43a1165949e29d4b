import ByteSchema.Text.Utf8
import Mathlib.Data.Nat.Bitwise

/-!
# Bytes cut off the end of a text

The front of a text's bytes is a text again exactly where a character starts behind it.  The last
byte of a text starts a character only if it is one by itself.
-/
namespace ByteSchema.Utf8

variable {bs front rest : List UInt8} {b : UInt8} {text : String}

private theorem exists_toText_iff :
    (∃ t, toText bs = .ok t) ↔ (ByteArray.mk bs.toArray).IsValidUTF8 := by
  unfold toText String.fromUTF8?
  by_cases valid : (ByteArray.mk bs.toArray).IsValidUTF8
  · simp [valid]
  · simp [valid]

/-- The front of a text ends where a character starts. -/
theorem exists_toText_front_iff (h : toBytes text = front ++ b :: rest) :
    (∃ t, toText front = .ok t) ↔ b.IsUTF8FirstByte := by
  have whole : text.toByteArray.data = front.toArray ++ (b :: rest).toArray := by
    rw [← Array.toList_inj, Array.toList_append, List.toList_toArray, List.toList_toArray, ← h,
      toBytes]
  have size : text.toByteArray.size = front.length + (rest.length + 1) := by
    rw [ByteArray.size, whole, Array.size_append, List.size_toArray, List.size_toArray,
      List.length_cons]
  have inside : front.length < text.toByteArray.size := by omega
  have cut : ByteArray.mk front.toArray = text.toByteArray.extract 0 front.length := by
    apply ByteArray.ext
    rw [ByteArray.data_extract, whole, Array.extract_append]
    simp
  have place : String.Pos.Raw.mk front.length ≤ text.rawEndPos := Nat.le_of_lt inside
  have before : String.Pos.Raw.mk front.length < text.rawEndPos := inside
  have here : text.getUTF8Byte ⟨front.length⟩ before = b := by
    change text.toByteArray[front.length] = b
    simp [ByteArray.getElem_eq_getElem_data, whole]
  have apart : String.Pos.Raw.mk front.length ≠ text.rawEndPos := fun same =>
    Nat.ne_of_lt inside (congrArg String.Pos.Raw.byteIdx same)
  have boundary := String.Pos.Raw.isValid_iff_isUTF8FirstByte (s := text) (p := ⟨front.length⟩)
  rw [String.Pos.Raw.isValid_iff_isValidUTF8_extract_zero, ← cut, and_iff_right place,
    or_iff_right apart] at boundary
  rw [exists_toText_iff, boundary, exists_prop_of_true before, here]

private theorem and_high_bit (ascii : b.toNat < 128) : b &&& 0x80 = 0 := by
  have bit : (0x80 : UInt8).toNat = 2 ^ 7 := rfl
  rw [← UInt8.toNat_inj, UInt8.toNat_and, bit, Nat.and_two_pow, Nat.testBit_lt_two_pow ascii]
  rfl

/-- The last byte of a character starts one only if there is no other. -/
private theorem last_encoded {c : Char} (h : String.utf8EncodeChar c = front ++ [b]) :
    b.IsUTF8FirstByte ↔ b.toNat < 128 := by
  have size : c.utf8Size = front.length + 1 := by
    rw [← String.length_utf8EncodeChar, h, List.length_append, List.length_singleton]
  have last : (String.utf8EncodeChar c)[front.length]? = some b := by simp [h]
  obtain ⟨inside, last⟩ := List.getElem?_eq_some_iff.mp last
  refine ⟨fun first => ?_, fun ascii => .inl (and_high_bit ascii)⟩
  rw [← last, UInt8.isUTF8FirstByte_getElem_utf8EncodeChar] at first
  have single : c.utf8Size = 1 := by omega
  have small : c.val.toNat ≤ 127 := UInt32.le_iff_toNat_le.mp (Char.utf8Size_eq_one_iff.mp single)
  rw [String.utf8EncodeChar_eq_singleton single] at h
  have split : [] ++ [c.val.toUInt8] = front ++ [b] := h
  obtain ⟨rfl, byte⟩ := List.append_inj' split rfl
  rw [← (List.cons.inj byte).1, UInt32.toNat_toUInt8]
  omega

/-- The last byte of a text starts a character only if it is a character. -/
theorem last_isUTF8FirstByte_iff (h : toBytes text = front ++ [b]) :
    b.IsUTF8FirstByte ↔ b.toNat < 128 := by
  obtain ⟨cs, rfl⟩ := text.exists_eq_ofList
  rw [toBytes, String.toByteArray_ofList] at h
  rcases List.eq_nil_or_concat cs with rfl | ⟨cs, c, rfl⟩
  · cases front with
    | nil => cases h
    | cons a front => cases h
  · rcases List.eq_nil_or_concat (String.utf8EncodeChar c) with none | ⟨init, last, encoded⟩
    · have size := String.length_utf8EncodeChar c
      rw [none] at size
      exact absurd size.symm c.utf8Size_pos.ne'
    · have bytes : (cs.utf8Encode.data.toList ++ init) ++ [last] = front ++ [b] := by
        rw [← h, List.append_assoc, ← List.concat_eq_append, ← encoded, List.concat_eq_append,
          List.utf8Encode_append, List.utf8Encode_singleton, ByteArray.data_append,
          Array.toList_append, List.data_toByteArray, List.toList_toArray]
      obtain ⟨-, same⟩ := List.append_inj' bytes rfl
      cases same
      exact last_encoded (encoded.trans (List.concat_eq_append))

end ByteSchema.Utf8
