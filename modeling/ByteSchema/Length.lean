import ByteSchema.Header

/-!
# How the length of something is known

Lengths of byte strings and counts of items are fixed by the schema, held in a header in front, or
whatever the rest of the input gives.  A limit looks at lengths from headers only.
-/
namespace ByteSchema

inductive Length where
  | fixed (n : Nat)
  | counted (header : Header)
  | remainder
  deriving DecidableEq, Repr

namespace Length

/-- A fixed count holds for the writer too. -/
def matchCount (expected found : Nat) : Outcome Unit :=
  if expected = found then .ok () else Outcome.fail (.lengthMismatch expected found)

/-- The bytes that the count itself takes. -/
def countSize (length : Length) (count : Nat) : Outcome Nat :=
  match length with
  | fixed n => do
    matchCount n count
    return 0
  | counted header => header.encodeSize count
  | remainder => .ok 0

def writeCount (length : Length) (count offset : Nat) : Writing Nat :=
  match length with
  | fixed n => do
    matchCount n count
    return offset
  | counted header => header.write count offset
  | remainder => return offset

/-- The count, if there is one, and where the items start. -/
def readCount (length : Length) (limit : Limit) (bytes : Bytes) (offset : Nat) :
    Reading (Option Nat × Nat) :=
  match length with
  | fixed n => return (some n, offset)
  | counted header => do
    let (n, start) ← header.readCount bytes offset
    limit.check n
    return (some n, start)
  | remainder => return (none, offset)

end Length
end ByteSchema
