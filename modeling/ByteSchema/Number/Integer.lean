import ByteSchema.Number.Digits
import ByteSchema.Number.Compact

/-!
# Integer formats

Two's complement words of five widths, and the compact 16-bit format.  Every format has a range;
an integer outside of it is refused before the buffer is touched.
-/
namespace ByteSchema

inductive Width where
  | one | two | four | eight | sixteen
  deriving DecidableEq, Repr

def Width.bytes : Width → Nat
  | one => 1
  | two => 2
  | four => 4
  | eight => 8
  | sixteen => 16

inductive IntFormat where
  | word (signed : Bool) (width : Width) (order : ByteOrder)
  | compact
  deriving DecidableEq, Repr

namespace IntFormat

def name : IntFormat → String
  | word signed width _ => (if signed then "i" else "u") ++ toString (8 * width.bytes)
  | compact => "short_u16"

def min : IntFormat → Int
  | word true width _ => -(span width.bytes / 2 : Nat)
  | word false _ _ => 0
  | compact => 0

def max : IntFormat → Int
  | word true width _ => (span width.bytes / 2 : Nat) - 1
  | word false width _ => (span width.bytes : Nat) - 1
  | compact => 65535

def checkRange (format : IntFormat) (v : Int) : Outcome Unit :=
  if format.min ≤ v ∧ v ≤ format.max then .ok ()
  else Outcome.fail (.intOutOfRange format.name v format.min format.max)

def size : IntFormat → Size
  | word _ width _ => .fixed width.bytes
  | compact => .varying

/-- The bytes of a word, two's complement for negative integers. -/
def wordBytes (width : Width) (order : ByteOrder) (v : Int) : List UInt8 :=
  order.arrange (toDigits width.bytes (v % (span width.bytes : Nat)).toNat)

/-- The integer that a word's bytes stand for. -/
def ofWordBytes (signed : Bool) (order : ByteOrder) (bs : List UInt8) : Int :=
  let n := ofDigits (order.arrange bs)
  if signed ∧ span bs.length ≤ 2 * n then (n : Int) - (span bs.length : Nat) else n

/-- A word's size needs no look at the integer. -/
def encodeSize (format : IntFormat) (v : Int) : Outcome Nat :=
  match format with
  | word _ width _ => .ok width.bytes
  | compact => do
    checkRange compact v
    return Compact.size v.toNat

def write (format : IntFormat) (v : Int) (offset : Nat) : Writing Nat := do
  format.checkRange v
  match format with
  | word _ width order => Writing.put offset (wordBytes width order v)
  | compact => Compact.write v.toNat offset

def read (format : IntFormat) (bytes : Bytes) (offset : Nat) : Outcome (Int × Nat) :=
  match format with
  | word signed width order => do
    let found ← bytes.window offset width.bytes
    return (ofWordBytes signed order found.toList, ← checkedAdd offset width.bytes)
  | compact => do
    let (n, stop) ← Compact.read bytes offset
    return (n, stop)

end IntFormat
end ByteSchema
