import ByteSchema.Limit
import ByteSchema.Number.Integer

/-!
# Headers and frames

A header holds a natural number in front of something else: a count, a tag or a flag.  It is an
integer, or a frame around another header.  A frame announces the length of its payload, and the
payload is read from a slice of just that length, with offsets counted from its start.
-/
namespace ByteSchema

namespace Frame

variable {α : Type}

def encodeSize (header : Nat → Outcome Nat) (payload : Outcome Nat) : Outcome Nat := do
  let len ← payload
  checkedAdd (← header len) len

/-- The payload has to take the length that was announced for it. -/
def write (header : Nat → Nat → Writing Nat) (size : Outcome Nat) (payload : Nat → Writing Nat)
    (offset : Nat) : Writing Nat := do
  let len ← size
  let start ← header len offset
  let stop ← payload start
  let written ← checkedSub stop start
  if written = len then return stop
  else Writing.of (Outcome.abort .writtenLength)

def read (header : Bytes → Nat → Reading (Nat × Nat)) (limit : Limit)
    (payload : Bytes → Nat → Reading (α × Nat)) (bytes : Bytes) (offset : Nat) :
    Reading (α × Nat) := do
  let (len, start) ← header bytes offset
  limit.check len
  let inside ← bytes.window start len
  let (a, consumed) ← payload inside 0
  if consumed = len then
    return (a, ← checkedAdd start len)
  else
    Reading.emit (.frameMismatch offset len consumed)
    Reading.fail (.lengthMismatch len consumed)

end Frame

inductive Header where
  | plain (format : IntFormat)
  | framed (inner header : Header) (limit : Limit)
  deriving DecidableEq, Repr

namespace Header

/-- An integer read where a length, count or tag is meant. -/
def toCount (v : Int) : Outcome Nat :=
  if 0 ≤ v ∧ v < addressSpace then .ok v.toNat
  else Outcome.fail (.intOutOfRange "usize" v 0 (addressSpace - 1))

def size : Header → Outcome Size
  | plain format => .ok format.size
  | framed inner header _ => do
    let outer ← header.size
    outer.add (← inner.size)

def encodeSize : Header → Nat → Outcome Nat
  | plain format, n => format.encodeSize n
  | framed inner header _, n => Frame.encodeSize header.encodeSize (inner.encodeSize n)

def write : Header → Nat → Nat → Writing Nat
  | plain format, n, offset => format.write n offset
  | framed inner header _, n, offset =>
    Frame.write header.write (inner.encodeSize n) (inner.write n) offset

/-- The integer that the header holds, which need not be one that `write` puts there. -/
def read : Header → Bytes → Nat → Reading (Int × Nat)
  | plain format, bytes, offset => Reading.of (format.read bytes offset)
  | framed inner header limit, bytes, offset =>
    Frame.read
      (fun bytes offset => do
        let (v, stop) ← header.read bytes offset
        return (← toCount v, stop))
      limit inner.read bytes offset

def readCount (header : Header) (bytes : Bytes) (offset : Nat) : Reading (Nat × Nat) := do
  let (v, stop) ← header.read bytes offset
  return (← toCount v, stop)

end Header
end ByteSchema
