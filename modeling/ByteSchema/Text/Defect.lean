/-!
# Why a text is refused

The four encodings of bytes as text, and what can be wrong with a text (or, for `utf8`, with the
bytes that should hold one).  A defect names the first offending place; its wording is one function.
-/
namespace ByteSchema

inductive Encoding where
  | utf8 | base16 | base58 | base64
  deriving DecidableEq, Repr

def Encoding.name : Encoding → String
  | .utf8 => "utf8"
  | .base16 => "base16"
  | .base58 => "base58"
  | .base64 => "base64"

inductive TextDefect where
  /-- The `length` bytes from `index` on start no UTF-8 character. -/
  | badSequence (length index : Nat)
  /-- The bytes end inside the UTF-8 character that starts at `index`. -/
  | cutSequence (index : Nat)
  | oddDigits
  | badDigit (digit : UInt8)
  | nonAscii (index : Nat)
  | badCharacter (character : UInt8) (index : Nat)
  | badSymbol (symbol : UInt8) (index : Nat)
  | badLastSymbol (symbol : UInt8) (index : Nat)
  | badLength (length : Nat)
  | badPadding
  deriving DecidableEq, Repr

namespace TextDefect

/-- A byte read as a character of the first Unicode block, in single quotes.  Controls, the
no-break space and the soft hyphen have no glyph and are written by their code. -/
def quoted (b : UInt8) : String :=
  let n := b.toNat
  let body :=
    if n = 0 then "\\0"
    else if n = 9 then "\\t"
    else if n = 10 then "\\n"
    else if n = 13 then "\\r"
    else if n = 39 then "\\'"
    else if n = 92 then "\\\\"
    else if n < 32 ∨ (127 ≤ n ∧ n ≤ 160) ∨ n = 173 then
      "\\u\x7b" ++ String.ofList (Nat.toDigits 16 n) ++ "\x7d"
    else String.singleton (Char.ofNat n)
  "'" ++ body ++ "'"

def message : TextDefect → String
  | badSequence length index =>
    s!"invalid utf-8 sequence of {length} bytes from index {index}"
  | cutSequence index => s!"incomplete utf-8 byte sequence from index {index}"
  | oddDigits => "odd number of digits"
  | badDigit digit => s!"invalid digit {quoted digit}"
  | nonAscii index => s!"provided string contained non-ascii character starting at byte {index}"
  | badCharacter character index =>
    s!"provided string contained invalid character {quoted character} at byte {index}"
  | badSymbol symbol index => s!"Invalid symbol {symbol.toNat}, offset {index}."
  | badLastSymbol symbol index => s!"Invalid last symbol {symbol.toNat}, offset {index}."
  | badLength length => s!"Invalid input length: {length}"
  | badPadding => "Invalid padding"

end TextDefect
end ByteSchema
