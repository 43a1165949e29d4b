import ByteSchema.Schema

/-!
# The size of a schema

It is read off the schema alone.  A schema without a fixed size may still have values that all take
the same number of bytes.  Summing up may leave the address space, which is a fault.
-/
namespace ByteSchema.Schema

mutual

def size : Schema → Outcome Size
  | int format => .ok format.size
  | float precision _ => .ok (.fixed precision.bytes)
  | bool header => header.size
  | slot _ shape => .ok shape.size
  | constant bytes => .ok (.fixed bytes.length)
  | record fields => sizeAfter (.fixed 0) fields
  | array item length _ => return Items.size length (← item.size)
  | map _ key value length _ => return Items.size length (← Items.pairSize key.size value.size)
  | option _ _ => .ok .varying
  | union header variants => do
    match ← header.size with
    | .varying => return .varying
    | .fixed tag =>
      match ← commonSize none variants with
      | none => return .varying
      | some payload => return .fixed (← checkedAdd tag payload)
  | framed inner header _ => do
    let outer ← header.size
    outer.add (← inner.size)
  | converted _ inner => inner.size

def sizeAfter (total : Size) : List (Field Schema) → Outcome Size
  | [] => .ok total
  | f :: fields => do
    let total ← total.add (← f.schema.size)
    sizeAfter total fields

/-- The one fixed size of all variants and of those before, if they have one.  Nothing is asked
behind the first variant that differs. -/
def commonSize (before : Option Nat) : List (Variant Schema) → Outcome (Option Nat)
  | [] => .ok before
  | v :: variants => do
    match ← v.schema.size with
    | .varying => return none
    | .fixed n => if before.getD n = n then commonSize (some n) variants else return none

end

end ByteSchema.Schema
