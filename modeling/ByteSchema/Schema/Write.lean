import ByteSchema.Schema.Size

/-!
# Writing values

`encodeSize` and `write` are separate walks over schema and value: the first looks at no more of the
value than it needs, and may know the size of a value that `write` refuses.
-/
namespace ByteSchema.Schema

mutual

def encodeSize : Schema → Value → Outcome Nat
  | int format, v => do format.encodeSize (← v.asInt)
  | float precision _, v => do
    let _ ← v.asFloat
    return precision.bytes
  | bool header, v => do header.encodeSize (← v.asBool).toNat
  | slot content shape, v => shape.encodeSize (content.toBytes v)
  | constant bytes, v => do
    v.asUnit
    return bytes.length
  | record fields, v => do encodeSizeAfter 0 fields (← v.asList)
  | array item length _, v => do
    Items.encodeSize length item.size (fun sum v => do checkedAdd sum (← item.encodeSize v))
      (← v.asList)
  | map _ key value length _, v => do
    Items.encodeSize length (Items.pairSize key.size value.size)
      (fun sum e => do
        let sum ← checkedAdd sum (← key.encodeSize e.1)
        checkedAdd sum (← value.encodeSize e.2))
      (← v.asEntries)
  | option header inner, v => do
    match ← v.asOption with
    | none => header.encodeSize 0
    | some v =>
      let tag ← header.encodeSize 1
      checkedAdd tag (← inner.encodeSize v)
  | union header variants, v => do
    let (label, payload) ← v.asCase
    encodeSizeCase header label payload variants
  | framed inner header _, v => Frame.encodeSize header.encodeSize (inner.encodeSize v)
  | converted conversion inner, v => do
    match ← inner.size with
    | .fixed n => return n
    | .varying => inner.encodeSize (conversion.store v)

def encodeSizeAfter (sum : Nat) : List (Field Schema) → List Value → Outcome Nat
  | [], [] => .ok sum
  | f :: fields, v :: vs => do
    let sum ← checkedAdd sum (← f.schema.encodeSize v)
    encodeSizeAfter sum fields vs
  | _, _ => Outcome.abort .wrongShape

/-- The first variant with the label is the one that counts. -/
def encodeSizeCase (header : Header) (label : String) (payload : Value) :
    List (Variant Schema) → Outcome Nat
  | [] => Outcome.fail .unmatchedVariant
  | v :: variants =>
    if v.label = label then do
      let tag ← header.encodeSize v.tag
      checkedAdd tag (← v.schema.encodeSize payload)
    else encodeSizeCase header label payload variants

end

mutual

/-- Writes a value at `offset` and answers where it ends. -/
def write : Schema → Value → Nat → Writing Nat
  | int format, v, offset => do format.write (← v.asInt) offset
  | float precision order, v, offset => do (← v.asFloat).write precision order offset
  | bool header, v, offset => do header.write (← v.asBool).toNat offset
  | slot content shape, v, offset => do shape.write (← content.toBytes v) offset
  | constant bytes, v, offset => do
    v.asUnit
    Writing.put offset bytes
  | record fields, v, offset => do writeFields fields (← v.asList) offset
  | array item length _, v, offset => do
    Items.write length (fun offset v => item.write v offset) (← v.asList) offset
  | map _ key value length _, v, offset => do
    Items.write length
      (fun offset e => do
        let offset ← key.write e.1 offset
        value.write e.2 offset)
      (← v.asEntries) offset
  | option header inner, v, offset => do
    match ← v.asOption with
    | none => header.write 0 offset
    | some v =>
      let offset ← header.write 1 offset
      inner.write v offset
  | union header variants, v, offset => do
    let (label, payload) ← v.asCase
    writeCase header label payload variants offset
  | framed inner header _, v, offset =>
    Frame.write header.write (inner.encodeSize v) (inner.write v) offset
  | converted conversion inner, v, offset => inner.write (conversion.store v) offset

def writeFields : List (Field Schema) → List Value → Nat → Writing Nat
  | [], [], offset => return offset
  | f :: fields, v :: vs, offset => do
    let offset ← f.schema.write v offset
    writeFields fields vs offset
  | _, _, _ => Writing.of (Outcome.abort .wrongShape)

def writeCase (header : Header) (label : String) (payload : Value) :
    List (Variant Schema) → Nat → Writing Nat
  | [], _ => Writing.of (Outcome.fail .unmatchedVariant)
  | v :: variants, offset =>
    if v.label = label then do
      let offset ← header.write v.tag offset
      v.schema.write payload offset
    else writeCase header label payload variants offset

end

/-- The bytes of a value, written into a buffer of just their size. -/
def encode (s : Schema) (v : Value) : Outcome Bytes := do
  let len ← s.encodeSize v
  match (s.write v 0).run (Array.replicate len 0) with
  | .ok stop buffer => if stop = len then .ok buffer else Outcome.abort .writtenLength
  | .error e _ => .error e

end ByteSchema.Schema
