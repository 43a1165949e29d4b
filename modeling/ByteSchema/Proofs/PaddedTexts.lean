import ByteSchema.Proofs.FixedSizes
import ByteSchema.Proofs.Text.ContentBytes
import ByteSchema.Proofs.Text.TextCuts

/-!
# Texts in padded slots

A slot of fixed size takes any text that fits.  Reading takes the pad bytes off the end again, and
with them bytes of the text that look alike.  What remains is a text unless the pad byte was the
end of a character of several bytes.
-/
namespace ByteSchema

namespace Encoding

variable {e : Encoding} {pad : UInt8} {bs : List UInt8} {text : String}

/-- Only a character that loses its last byte keeps the rest from being a text. -/
private theorem exists_trim_utf8_iff (text : String) (pad : UInt8) :
    (∃ t, Utf8.toText (Slot.trim pad (Utf8.toBytes text)) = .ok t) ↔
      ¬ (128 ≤ pad.toNat ∧ (Utf8.toBytes text).getLast? = some pad) := by
  by_cases ends : (Utf8.toBytes text).getLast? = some pad
  · obtain ⟨rest, cut⟩ := Slot.eq_trim_append_cons ends
    obtain ⟨front, split⟩ := List.getLast?_eq_some_iff.mp ends
    rw [Utf8.exists_toText_front_iff cut, Utf8.last_isUTF8FirstByte_iff split, ← Nat.not_le]
    simp [ends]
  · rw [Slot.trim_eq_self ends]
    simp [ends, Utf8.toText_toBytes]

theorem exists_trim_iff (h : e.toBytes text = .ok bs) (pad : UInt8) :
    (∃ t, e.toText (Slot.trim pad bs) = .ok t) ↔
      ¬ (e = utf8 ∧ 128 ≤ pad.toNat ∧ bs.getLast? = some pad) := by
  by_cases plain : e = utf8
  · subst plain
    cases h
    simp only [true_and, ← exists_trim_utf8_iff text pad, toText, refuse_eq_ok_iff]
  · simp [plain, toText_total plain]

private theorem exists_defect (h : ¬ ∃ t, utf8.toText bs = .ok t) :
    ∃ defect, utf8.toText bs = Outcome.fail (.invalidText utf8 defect) := by
  simp only [toText] at h ⊢
  cases found : Utf8.toText bs with
  | ok t => exact absurd ⟨t, by rw [found]; rfl⟩ h
  | error defect => exact ⟨defect, rfl⟩

end Encoding

namespace Schema

/-- A slot of `n` bytes for a text, which is read without the padding. -/
def padded (e : Encoding) (n : Nat) (pad : UInt8) (limit : Limit) : Schema :=
  slot (.text e) ⟨.fixed n, pad, true, limit⟩

variable {e : Encoding} {n : Nat} {pad : UInt8} {limit : Limit} {text : String} {bs : List UInt8}

private theorem write_padded_of_long (h : e.toBytes text = .ok bs) (long : n < bs.length)
    (offset : Nat) (buffer : Bytes) :
    ((padded e n pad limit).write (.text text) offset).run buffer =
      .error (.error (.lengthExceeded bs.length n)) buffer := by
  have content : (Content.text e).toBytes (.text text) = .ok bs := h
  rw [padded, write, content, EStateM.run_bind, Writing.run_lift]
  simp only [Slot.write, if_pos long]
  rfl

private theorem encode_padded_of_long (h : e.toBytes text = .ok bs) (long : n < bs.length) :
    (padded e n pad limit).encode (.text text) = Outcome.fail (.lengthExceeded bs.length n) := by
  have size : (padded e n pad limit).encodeSize (.text text) = .ok n := rfl
  simp only [encode, size, bind, Except.bind, write_padded_of_long h long]
  rfl

private theorem encode_padded (small : n < addressSpace) (h : e.toBytes text = .ok bs)
    (fits : bs.length ≤ n) :
    (padded e n pad limit).encode (.text text) =
      .ok (bs ++ List.replicate (n - bs.length) pad).toArray := by
  have sized : (padded e n pad limit).Everywhere Sized := everywhere_sized_of_fixed (n := n) rfl
  refine (encode_eq_ok_iff sized).mpr ⟨_, Outcome.bind_eq_ok.mpr ⟨bs, h, ?_⟩, ?_, rfl⟩
  · exact if_neg (Nat.not_lt.mpr fits)
  · rw [List.length_append, List.length_replicate]
    omega

private theorem read_padded {out : Bytes} (small : n < addressSpace) (size : out.size = n) :
    (padded e n pad limit).read out 0 =
      ⟨[], (Content.text e).ofBytes (Slot.trim pad out.toList) >>= fun v => pure (v, out.size)⟩ := by
  have window := (Bytes.spans_whole out (size ▸ small)).window (size ▸ small)
  rw [Array.length_toList, size, Array.toArray_toList] at window
  have payload : Slot.read ⟨.fixed n, pad, true, limit⟩ out 0 =
      ⟨[], .ok (Slot.trim pad out.toList, out.size)⟩ :=
    (Slot.read_fixed_eq_ok_iff rfl).mpr ⟨rfl, out, window, rfl, by rw [size, Nat.zero_add]⟩
  rw [padded, read, payload, Reading.ok_bind]
  cases found : (Content.text e).ofBytes (Slot.trim pad out.toList) with
  | error failure =>
    simp only [found]
    rfl
  | ok v =>
    simp only [found]
    rfl

private theorem decode_padded {out : Bytes} (small : n < addressSpace) (size : out.size = n) :
    ((padded e n pad limit).decode out).outcome =
      (Content.text e).ofBytes (Slot.trim pad out.toList) := by
  have reading : (padded e n pad limit).read out 0 = _ := read_padded small size
  have fixed : (padded e n pad limit).size = .ok (.fixed n) := rfl
  cases found : (Content.text e).ofBytes (Slot.trim pad out.toList) with
  | error failure =>
    rw [found] at reading
    exact decode_of_refused fixed (checkSize_fixed_eq_ok_iff.mpr size) reading
  | ok v =>
    rw [found] at reading
    rw [decode_of_read fixed reading]

private theorem ofBytes_text_eq_ok_iff {v : Value} :
    (Content.text e).ofBytes bs = .ok v ↔ ∃ t, e.toText bs = .ok t ∧ v = .text t := by
  rw [Content.ofBytes, Outcome.bind_eq_ok]
  refine exists_congr fun t => and_congr_right fun _ => ?_
  rw [Outcome.pure_eq_ok]
  exact eq_comm

/-- A text is written into a slot if it fits, and read back without the bytes at its end that look
like padding.  Only a character of several bytes that ends in the pad byte is lost, and then the
slot is refused. -/
theorem padded_text (n : Nat) (pad : UInt8) (limit : Limit) (small : n < addressSpace)
    (h : e.toBytes text = .ok bs) :
    (n < bs.length →
      (padded e n pad limit).encode (.text text) = Outcome.fail (.lengthExceeded bs.length n) ∧
      ∀ offset buffer, ((padded e n pad limit).write (.text text) offset).run buffer =
        .error (.error (.lengthExceeded bs.length n)) buffer) ∧
    (bs.length ≤ n → ∃ out, (padded e n pad limit).encode (.text text) = .ok out ∧
      ((∃ v, ((padded e n pad limit).decode out).outcome = .ok v) ↔
        ¬ (e = .utf8 ∧ 128 ≤ pad.toNat ∧ bs.getLast? = some pad)) ∧
      (∀ v, ((padded e n pad limit).decode out).outcome = .ok v →
        ∃ found, v = .text found ∧ e.toBytes found = .ok (Slot.trim pad bs)) ∧
      (bs.getLast? ≠ some pad →
        ((padded e n pad limit).decode out).outcome = .ok (.text (e.spelling text))) ∧
      (e = .utf8 ∧ 128 ≤ pad.toNat ∧ bs.getLast? = some pad → ∃ defect,
        ((padded e n pad limit).decode out).outcome = Outcome.fail (.invalidText .utf8 defect))) := by
  refine ⟨fun long => ⟨encode_padded_of_long h long, write_padded_of_long h long⟩, fun fits => ?_⟩
  refine ⟨_, encode_padded small h fits, ?_⟩
  have size : (bs ++ List.replicate (n - bs.length) pad).toArray.size = n := by
    rw [List.size_toArray, List.length_append, List.length_replicate]
    omega
  rw [decode_padded small size, List.toList_toArray, Slot.trim_append_replicate,
    ← Encoding.exists_trim_iff h pad]
  refine ⟨?_, fun v decoded => ?_, fun kept => ?_, fun lost => ?_⟩
  · simp only [ofBytes_text_eq_ok_iff]
    exact ⟨fun ⟨_, t, found, _⟩ => ⟨t, found⟩, fun ⟨t, found⟩ => ⟨_, t, found, rfl⟩⟩
  · obtain ⟨t, found, rfl⟩ := ofBytes_text_eq_ok_iff.mp decoded
    exact ⟨t, rfl, Encoding.toBytes_of_toText found⟩
  · rw [Slot.trim_eq_self kept]
    exact ofBytes_text_eq_ok_iff.mpr ⟨_, Encoding.toBytes_eq_ok_iff.mp h, rfl⟩
  · have unreadable := mt (Encoding.exists_trim_iff h pad).mp (not_not.mpr lost)
    obtain ⟨rfl, -⟩ := lost
    obtain ⟨defect, found⟩ := Encoding.exists_defect unreadable
    refine ⟨defect, ?_⟩
    rw [Content.ofBytes, found]
    rfl

theorem padded_text_samples :
    (padded .base58 4 49 .all).encode (.text "21") = .ok #[58, 49, 49, 49] ∧
    (∃ out, ((padded .base58 4 49 .all).decode out).outcome = .ok (.text "21")) ∧
    (padded .utf8 1 0 .all).encode (.text "é") = Outcome.fail (.lengthExceeded 2 1) ∧
    (∃ out v t, ((padded .utf8 5 32 .all).decode out).outcome = .ok v ∧ v = .text t ∧
      Encoding.utf8.toBytes t = .ok [195, 169]) ∧
    ∃ out defect, ((padded .utf8 4 169 .all).decode out).outcome =
      Outcome.fail (.invalidText .utf8 defect) := by
  have room : 5 < addressSpace := by decide
  have digits : Encoding.base58.toBytes "21" = .ok [58] := rfl
  have letter : Encoding.utf8.toBytes "é" = .ok [195, 169] := rfl
  have spaced : Encoding.utf8.toBytes "é " = .ok [195, 169, 32] := rfl
  obtain ⟨out₁, _, -, -, kept, -⟩ := (padded_text 4 49 .all (by omega) digits).2 (by decide)
  obtain ⟨out₂, _, readable, trimmed, -, -⟩ := (padded_text 5 32 .all room spaced).2 (by decide)
  obtain ⟨out₃, _, -, -, -, lost⟩ := (padded_text 4 169 .all (by omega) letter).2 (by decide)
  obtain ⟨v, decoded⟩ := readable.mpr (by decide)
  obtain ⟨t, isText, bytes⟩ := trimmed v decoded
  exact ⟨rfl, ⟨out₁, kept (by decide)⟩,
    ((padded_text 1 0 .all (by omega) letter).1 (by decide)).1,
    ⟨out₂, v, t, decoded, isText, bytes⟩, out₃, lost (by decide)⟩

/-- The last byte of the letter is taken for padding, and the first one alone is no text. -/
theorem padded_text_lost :
    (padded .utf8 4 169 .all).encode (.text "é") = .ok #[195, 169, 169, 169] ∧
    ((padded .utf8 4 169 .all).decode #[195, 169, 169, 169]).outcome =
      Outcome.fail (.invalidText .utf8 (.cutSequence 0)) :=
  ⟨rfl, rfl⟩

end Schema
end ByteSchema
