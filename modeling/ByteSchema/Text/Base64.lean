import ByteSchema.Text.Defect

/-!
# Base 64

Four symbols for three bytes, with `=` to fill the last group.  Only the canonical text of some
bytes is read: padding is required, and the bits that it stands for are zero.
-/
namespace ByteSchema.Base64

def alphabet : List Char :=
  "ABCDEFGHIJKLMNOPQRSTUVWXYZabcdefghijklmnopqrstuvwxyz0123456789+/".toList

def letter (value : Nat) : Char := alphabet.getD value '='

def encode : List UInt8 → List Char
  | a :: b :: c :: rest =>
    letter (a.toNat / 4) :: letter (a.toNat % 4 * 16 + b.toNat / 16) ::
      letter (b.toNat % 16 * 4 + c.toNat / 64) :: letter (c.toNat % 64) :: encode rest
  | [a, b] =>
    [letter (a.toNat / 4), letter (a.toNat % 4 * 16 + b.toNat / 16), letter (b.toNat % 16 * 4), '=']
  | [a] => [letter (a.toNat / 4), letter (a.toNat % 4 * 16), '=', '=']
  | [] => []

def isPad (b : UInt8) : Bool := b.toNat = '='.toNat

/-- The value of the symbol at `index` of the text. -/
def symbol (index : Nat) (b : UInt8) : Except TextDefect Nat :=
  match alphabet.idxOf? (Char.ofNat b.toNat) with
  | some value => .ok value
  | none => .error (.badSymbol b index)

/-- The symbols of the last group, from its `position` on, and how many pads follow them.  A pad
needs two symbols before it, and a symbol behind a pad makes the first pad wrong. -/
def lastGroup (index : Nat) : List UInt8 → Nat → List Nat → Option Nat →
    Except TextDefect (List Nat × Nat)
  | [], position, values, pad =>
    .ok (values.reverse, match pad with | some first => position - first | none => 0)
  | b :: rest, position, values, pad =>
    if isPad b then
      if position < 2 then .error (.badSymbol b (index + position))
      else lastGroup index rest (position + 1) values (some (pad.getD position))
    else
      match pad with
      | some first => .error (.badSymbol (UInt8.ofNat '='.toNat) (index + first))
      | none => do
        let value ← symbol (index + position) b
        lastGroup index rest (position + 1) (value :: values) none

/-- The bytes of the symbols of a last group; bits that fill no byte have to be zero. -/
def closing (index : Nat) : List Nat → Except TextDefect (List UInt8)
  | [a, b] =>
    if b % 16 = 0 then .ok [UInt8.ofNat (a * 4 + b / 16)]
    else .error (.badLastSymbol (UInt8.ofNat (letter b).toNat) (index + 1))
  | [a, b, c] =>
    if c % 4 = 0 then
      .ok [UInt8.ofNat (a * 4 + b / 16), UInt8.ofNat (b % 16 * 16 + c / 4)]
    else .error (.badLastSymbol (UInt8.ofNat (letter c).toNat) (index + 2))
  | [a, b, c, d] =>
    .ok [UInt8.ofNat (a * 4 + b / 16), UInt8.ofNat (b % 16 * 16 + c / 4),
      UInt8.ofNat (c % 4 * 64 + d)]
  | values => .error (.badLength (index + values.length))

/-- Reads the last group behind the bytes of `done` (last first). -/
def finish (done : List UInt8) (index : Nat) (last : List UInt8) :
    Except TextDefect (List UInt8) := do
  let (values, pads) ← lastGroup index last 0 [] none
  if values.length < 2 then throw (.badLength (index + values.length))
  if (values.length + pads) % 4 ≠ 0 then throw .badPadding
  return done.reverse ++ (← closing index values)

/-- Reads groups from `index` on, behind the bytes of `done` (last first).  The last group is the
one that no other symbol follows, however many symbols it has. -/
def decodeAfter : List UInt8 → Nat → List UInt8 → Except TextDefect (List UInt8)
  | done, index, a :: b :: c :: d :: rest =>
    if rest.isEmpty then finish done index [a, b, c, d]
    else do
      let a ← symbol index a
      let b ← symbol (index + 1) b
      let c ← symbol (index + 2) c
      let d ← symbol (index + 3) d
      decodeAfter (UInt8.ofNat (c % 4 * 64 + d) :: UInt8.ofNat (b % 16 * 16 + c / 4) ::
        UInt8.ofNat (a * 4 + b / 16) :: done) (index + 4) rest
  | done, index, last => finish done index last

/-- A single symbol behind whole groups is looked at first, so that a stray byte at the end is named
before the rest of the text is read. -/
def decode (text : List UInt8) : Except TextDefect (List UInt8) := do
  match text.getLast? with
  | none => return []
  | some b =>
    if text.length % 4 = 1 ∧ ¬ isPad b then
      let _ ← symbol (text.length - 1) b
    decodeAfter [] 0 text

end ByteSchema.Base64
