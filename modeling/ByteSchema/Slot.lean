import ByteSchema.Length

/-!
# Slots for byte strings

A slot of fixed length is filled up with the pad byte; such padding can be taken off again when
reading, together with any content bytes at the end that look like it.
-/
namespace ByteSchema

structure Slot where
  length : Length
  pad : UInt8
  strip : Bool
  limit : Limit
  deriving DecidableEq, Repr

namespace Slot

def size (slot : Slot) : Size :=
  match slot.length with
  | .fixed n => .fixed n
  | _ => .varying

/-- A fixed slot has its size whatever it is to hold. -/
def encodeSize (slot : Slot) (payload : Outcome (List UInt8)) : Outcome Nat :=
  match slot.length with
  | .fixed n => .ok n
  | .counted header => do
    let bs ← payload
    checkedAdd (← header.encodeSize bs.length) bs.length
  | .remainder => do
    let bs ← payload
    return bs.length

def write (slot : Slot) (payload : List UInt8) (offset : Nat) : Writing Nat :=
  match slot.length with
  | .fixed n =>
    if n < payload.length then Writing.of (Outcome.fail (.lengthExceeded payload.length n))
    else do
      let stop ← Writing.put offset payload
      Writing.fill stop (n - payload.length) slot.pad
  | .counted header => do
    let start ← header.write payload.length offset
    Writing.put start payload
  | .remainder => Writing.put offset payload

/-- `bs` without the pad bytes at its end. -/
def trim (pad : UInt8) (bs : List UInt8) : List UInt8 :=
  (bs.reverse.dropWhile (· == pad)).reverse

def read (slot : Slot) (bytes : Bytes) (offset : Nat) : Reading (List UInt8 × Nat) :=
  match slot.length with
  | .fixed n => do
    let found ← bytes.window offset n
    let stop ← checkedAdd offset n
    return (if slot.strip then trim slot.pad found.toList else found.toList, stop)
  | .counted header => do
    let (len, start) ← header.readCount bytes offset
    slot.limit.check len
    let found ← bytes.window start len
    return (found.toList, ← checkedAdd start len)
  | .remainder => do
    let found ← bytes.rest offset
    return (found.toList, ← checkedAdd offset found.size)

end Slot
end ByteSchema
