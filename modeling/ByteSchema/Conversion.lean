import ByteSchema.Value
import ByteSchema.Text.Utf8
import ByteSchema.Text.Base16

/-!
# Conversions between a value and its stored form

`store` is applied before writing and `load` after reading.  Both are total; on a value that is not
of the expected form they change nothing.
-/
namespace ByteSchema

structure Conversion where
  store : Value → Value
  load : Value → Value

namespace Conversion

/-- An integer stored larger by `n`. -/
def raisedBy (n : Int) : Conversion where
  store
    | .int v => .int (v + n)
    | v => v
  load
    | .int v => .int (v - n)
    | v => v

def reversed : Conversion where
  store
    | .list vs => .list vs.reverse
    | v => v
  load
    | .list vs => .list vs.reverse
    | v => v

/-- The decimal numerals between the dots, `n` being what was read of the current one and `done`
those before (last first). -/
def numerals : List Char → Nat → List Nat → Option (List Nat)
  | [], n, done => some (n :: done).reverse
  | c :: cs, n, done =>
    if c = '.' then numerals cs 0 (n :: done)
    else if c.isDigit then numerals cs (10 * n + (c.toNat - 48)) done
    else none

def ofQuad (s : String) : Option Nat :=
  match numerals s.toList 0 [] with
  | some [a, b, c, d] =>
    if a < 256 ∧ b < 256 ∧ c < 256 ∧ d < 256 then some (((a * 256 + b) * 256 + c) * 256 + d)
    else none
  | _ => none

def toQuad (n : Nat) : String :=
  ".".intercalate
    [toString (n / 16777216 % 256), toString (n / 65536 % 256), toString (n / 256 % 256),
      toString (n % 256)]

/-- Four decimal numbers between dots, stored as one integer with the first on top. -/
def dottedQuad : Conversion where
  store
    | .text s => match ofQuad s with
      | some n => .int n
      | none => .text s
    | v => v
  load
    | .int n => .text (toQuad n.toNat)
    | v => v

def ofHex (s : String) : Option (List Value) :=
  match Base16.decode (Utf8.toBytes s) with
  | .ok bs => some (bs.map fun b => .int b.toNat)
  | .error _ => none

def toHex (vs : List Value) : String :=
  String.ofList (Base16.encode (vs.map fun
    | .int n => UInt8.ofNat n.toNat
    | _ => 0))

/-- Hexadecimal digits, stored as the list of the bytes that they stand for. -/
def hexText : Conversion where
  store
    | .text s => match ofHex s with
      | some vs => .list vs
      | none => .text s
    | v => v
  load
    | .list vs => .text (toHex vs)
    | v => v

end Conversion
end ByteSchema
