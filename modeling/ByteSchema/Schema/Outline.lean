import ByteSchema.Schema.Size

/-!
# Outlines

What a schema shows of its own make-up, one level deep.
-/
namespace ByteSchema

/-- How an array knows its number of items; a header shows its size. -/
inductive LengthOutline where
  | fixed (n : Nat)
  | counted (header : Size)
  | remainder
  deriving DecidableEq, Repr

inductive Outline where
  | plain
  | number (order : ByteOrder)
  | constant (bytes : List UInt8)
  | items (sizes : List Size)
  | fields (names : List String)
  | array (length : LengthOutline) (item : Size)
  | tags (tags : List Nat)
  | wrapped (inner : Size)
  deriving DecidableEq, Repr

def Length.outline : Length → Outcome LengthOutline
  | fixed n => .ok (.fixed n)
  | counted header => return .counted (← header.size)
  | remainder => .ok .remainder

namespace Schema

/-- A record whose fields all have names shows the names, any other record the sizes. -/
def outline : Schema → Outcome Outline
  | int (.word _ _ order) => .ok (.number order)
  | float _ order => .ok (.number order)
  | constant bytes => .ok (.constant bytes)
  | record fields =>
    match fields.mapM Field.name with
    | some names => .ok (.fields names)
    | none => return .items (← fields.mapM fun f => f.schema.size)
  | array item length _ => do
    let outer ← length.outline
    return .array outer (← item.size)
  | union _ variants => .ok (.tags (variants.map Variant.tag))
  | framed inner _ _ => return .wrapped (← inner.size)
  | converted _ inner => return .wrapped (← inner.size)
  | _ => .ok .plain

end Schema
end ByteSchema
