import ByteSchema.Content
import ByteSchema.Proofs.Text.Base58Numerals
import ByteSchema.Proofs.Text.Base64Groups
import ByteSchema.Proofs.Text.Hexadecimal

/-!
# Texts and the bytes they stand for

What was read from bytes stands for these bytes again, under every encoding.  The converse holds as
well, except that hexadecimal capitals come back small.
-/
namespace ByteSchema

open Utf8

namespace Encoding

variable {e : Encoding} {bs : List UInt8} {text : String}

theorem refuse_eq_ok_iff {α : Type} {x : Except TextDefect α} {a : α} :
    e.refuse x = .ok a ↔ x = .ok a := by
  cases x with
  | ok b => simp [refuse]
  | error defect => simp [refuse]

/-- The spelling in which a text comes back: hexadecimal letters become small. -/
def spelling (e : Encoding) (text : String) : String :=
  if e = base16 then text.toLower else text

/-- The letters of a text that is small but for capitals are single bytes. -/
private theorem lower_toBytes {text : String} (ascii : ∀ c ∈ text.toLower.toList, c.toNat < 128) :
    (Utf8.toBytes text).map Base16.lower = text.toLower.toList := by
  rw [toList_toLower] at ascii ⊢
  have chars : ∀ c ∈ text.toList, c.toNat < 128 := fun c hc =>
    lt_of_toLower_lt (ascii _ (List.mem_map_of_mem hc))
  conv_lhs => rw [← String.ofList_toList (s := text)]
  rw [toBytes_ofList chars, List.map_map]
  refine List.map_congr_left fun c hc => ?_
  rw [Function.comp_apply, Base16.lower, asciiChar_asciiByte (chars c hc)]

private theorem decode_eq_ok_iff_ofList {text : String} :
    Base16.decode (Utf8.toBytes text) = .ok bs ↔
      String.ofList (Base16.encode bs) = text.toLower := by
  rw [← String.toList_inj, String.toList_ofList]
  constructor
  · intro h
    rw [Base16.decode_eq_ok_iff.mp h, toList_toLower, toList_eq (Base16.ascii_of_decode h),
      List.map_map]
    rfl
  · intro spelled
    rw [Base16.decode_eq_ok_iff, lower_toBytes (spelled ▸ Base16.encode_lt bs), spelled]

/-- A text stands for the bytes that are written as its spelling. -/
theorem toBytes_eq_ok_iff : e.toBytes text = .ok bs ↔ e.toText bs = .ok (e.spelling text) := by
  cases e with
  | utf8 =>
    rw [toBytes, toText, refuse_eq_ok_iff, Except.ok.injEq]
    constructor
    · rintro rfl
      exact toText_toBytes text
    · exact Utf8.toBytes_of_toText
  | base16 =>
    rw [toBytes, toText, refuse_eq_ok_iff, Except.ok.injEq]
    exact decode_eq_ok_iff_ofList
  | base58 =>
    rw [toBytes, toText, refuse_eq_ok_iff, Except.ok.injEq, ofList_eq_iff (Base58.encode_lt bs)]
    exact Base58.decode_eq_ok_iff
  | base64 =>
    rw [toBytes, toText, refuse_eq_ok_iff, Except.ok.injEq, ofList_eq_iff (Base64.encode_lt bs)]
    exact Base64.decode_eq_ok_iff

/-- No letter of the text is a capital, if its encoding reads capitals as small letters. -/
def Small (e : Encoding) (text : String) : Prop :=
  e = base16 → ∀ c ∈ text.toList, c.isUpper = false

theorem spelling_of_small (small : e.Small text) : e.spelling text = text := by
  by_cases hexadecimal : e = base16
  · rw [spelling, if_pos hexadecimal, ← String.toList_inj, toList_toLower]
    conv_rhs => rw [← List.map_id text.toList]
    exact List.map_congr_left fun c hc => toLower_of_small (small hexadecimal c hc)
  · rw [spelling, if_neg hexadecimal]

theorem small_of_toText (h : e.toText bs = .ok text) : e.Small text := by
  intro hexadecimal
  subst hexadecimal
  cases h
  rw [String.toList_ofList]
  exact Base16.encode_small bs

theorem toBytes_of_toText (h : e.toText bs = .ok text) : e.toBytes text = .ok bs := by
  rw [toBytes_eq_ok_iff, spelling_of_small (small_of_toText h)]
  exact h

theorem toText_total (binary : e ≠ utf8) (bs : List UInt8) : ∃ text, e.toText bs = .ok text := by
  cases e with
  | utf8 => exact absurd rfl binary
  | base16 | base58 | base64 => exact ⟨_, rfl⟩

/-- Hexadecimal texts are the even numbers of digits. -/
private theorem exists_toBytes_iff {text : String} :
    (∃ bs, base16.toBytes text = .ok bs) ↔
      text.utf8ByteSize % 2 = 0 ∧ ∀ b ∈ Utf8.toBytes text, (asciiChar b).isHexDigit = true := by
  have size : (Utf8.toBytes text).length = text.utf8ByteSize := rfl
  simp only [toBytes, refuse_eq_ok_iff, Base16.exists_decode_eq_ok_iff, size]

/-- Bytes and texts are exact inverses, but for the case of hexadecimal digits. -/
theorem exact_inverse (e : Encoding) :
    (e ≠ utf8 → ∀ bs, ∃ text, e.toText bs = .ok text ∧ e.toBytes text = .ok bs) ∧
    (∀ bs text, e.toText bs = .ok text → e.toBytes text = .ok bs) ∧
    (e = utf8 → ∀ text, ∃ bs, e.toBytes text = .ok bs ∧ e.toText bs = .ok text) ∧
    (∀ text bs, e.toBytes text = .ok bs → e.toText bs = .ok (e.spelling text)) ∧
    (∀ text other bs, e.toBytes text = .ok bs →
      (e.toBytes other = .ok bs ↔ e.spelling other = e.spelling text)) ∧
    (e = base16 → ∀ text, (∃ bs, e.toBytes text = .ok bs) ↔
      text.utf8ByteSize % 2 = 0 ∧ ∀ b ∈ Utf8.toBytes text, (asciiChar b).isHexDigit = true) := by
  refine ⟨fun binary bs => ?_, fun _ _ => toBytes_of_toText, ?_, fun _ _ => toBytes_eq_ok_iff.mp,
    fun text other bs h => ?_, ?_⟩
  · obtain ⟨text, h⟩ := toText_total binary bs
    exact ⟨text, h, toBytes_of_toText h⟩
  · rintro rfl text
    exact ⟨Utf8.toBytes text, rfl, toBytes_eq_ok_iff.mp rfl⟩
  · rw [toBytes_eq_ok_iff] at h ⊢
    rw [h, Except.ok.injEq]
    exact eq_comm
  · rintro rfl text
    exact exists_toBytes_iff

theorem exact_inverse_samples :
    (∃ text, base58.toText [0, 57] = .ok text ∧ base58.toBytes text = .ok [0, 57]) ∧
    base64.toBytes "+/8=" = .ok [251, 255] ∧
    (∃ bs, utf8.toBytes "é" = .ok bs ∧ utf8.toText bs = .ok "é") ∧
    base16.toText [175] = .ok (base16.spelling "aF") ∧
    base16.spelling "Af" = base16.spelling "aF" ∧
    ¬ ∃ bs, base16.toBytes "é" = .ok bs := by
  obtain ⟨-, -, -, written, same, accepted⟩ := exact_inverse base16
  have mixed : base16.toBytes "aF" = .ok [175] := rfl
  have letter : Utf8.toBytes "é" = [195, 169] := rfl
  have foreign : ¬ (asciiChar 195).isHexDigit = true := by decide
  exact ⟨(exact_inverse base58).1 (by decide) [0, 57], (exact_inverse base64).2.1 _ _ rfl,
    (exact_inverse utf8).2.2.1 rfl "é", written _ _ mixed, (same _ "Af" _ mixed).mp rfl,
    fun read => foreign (((accepted rfl "é").mp read).2 195 (letter ▸ List.mem_cons_self))⟩

end Encoding

namespace Content

variable {content : Content} {v : Value} {bs : List UInt8}

/-- What was read from bytes stands for these bytes. -/
theorem toBytes_of_ofBytes (h : content.ofBytes bs = .ok v) : content.toBytes v = .ok bs := by
  cases content with
  | raw =>
    cases h
    rfl
  | text e =>
    obtain ⟨text, htext, h⟩ := Outcome.bind_eq_ok.mp h
    cases h
    exact Encoding.toBytes_of_toText htext

/-- The content of a text comes back, but for capitals among hexadecimal digits. -/
def Small (content : Content) (v : Value) : Prop :=
  ∀ e text, content = .text e → v = .text text → e.Small text

/-- A text that was read has no capitals to lose. -/
theorem small_of_ofBytes (h : content.ofBytes bs = .ok v) : content.Small v := by
  intro e text isText value
  subst isText value
  obtain ⟨text', htext, h⟩ := Outcome.bind_eq_ok.mp h
  cases h
  exact Encoding.small_of_toText htext

theorem ofBytes_of_toBytes (h : content.toBytes v = .ok bs) (small : content.Small v) :
    content.ofBytes bs = .ok v := by
  cases content with
  | raw =>
    cases v with
    | bytes found =>
      cases h
      rfl
    | _ => cases h
  | text e =>
    obtain ⟨text, htext, h⟩ := Outcome.bind_eq_ok.mp h
    cases v with
    | text s =>
      cases htext
      have back := Encoding.toBytes_eq_ok_iff.mp h
      rw [Encoding.spelling_of_small (small e text rfl rfl)] at back
      exact Outcome.bind_eq_ok.mpr ⟨text, back, rfl⟩
    | _ => cases htext

end Content
end ByteSchema
