import ByteSchema.Schema.Size

/-!
# Reading values

`read` takes a value from an offset on and leaves what follows it alone; `decode` wants the value
and nothing else.
-/
namespace ByteSchema.Schema

/-- `false` and `true` are held as 0 and 1; any other number is no boolean. -/
def readBool (header : Header) (bytes : Bytes) (offset : Nat) : Reading (Value × Nat) :=
  match header.readCount bytes offset with
  | ⟨events, .ok (0, stop)⟩ => ⟨events, .ok (.bool false, stop)⟩
  | ⟨events, .ok (1, stop)⟩ => ⟨events, .ok (.bool true, stop)⟩
  | ⟨events, .ok _⟩ => ⟨events, Outcome.fail .invalidBool⟩
  | ⟨events, .error (.error (.intOutOfRange ..))⟩ => ⟨events, Outcome.fail .invalidBool⟩
  | ⟨events, .error e⟩ => ⟨events, .error e⟩

/-- Reports a field with a name that cannot be read. -/
def reportField (name : Option String) (offset : Nat) (x : Reading (Value × Nat)) :
    Reading (Value × Nat) :=
  match name with
  | some name => x.reporting (.fieldFailed name offset)
  | none => x

mutual

/-- Reads a value at `offset`; answers it and where it ends. -/
def read : Schema → Bytes → Nat → Reading (Value × Nat)
  | int format, bytes, offset => do
    let (v, stop) ← format.read bytes offset
    return (.int v, stop)
  | float precision order, bytes, offset => do
    let (x, stop) ← Floating.read precision order bytes offset
    return (.float x, stop)
  | bool header, bytes, offset => readBool header bytes offset
  | slot content shape, bytes, offset => do
    let (found, stop) ← shape.read bytes offset
    return (← content.ofBytes found, stop)
  | constant expected, bytes, offset => do
    let found ← bytes.window offset expected.length
    if found.toList = expected then
      return (.unit, ← checkedAdd offset expected.length)
    else Reading.fail (.invalidConstant expected found.toList)
  | record fields, bytes, offset => do
    let (vs, stop) ← readFields fields bytes offset
    return (.list vs, stop)
  | array item length limit, bytes, offset => do
    let (vs, stop) ← Items.read length limit item.size (item.read bytes) bytes offset
    return (.list vs, stop)
  | map kind key value length limit, bytes, offset => do
    let pair (offset : Nat) : Reading ((Value × Value) × Nat) := do
      let (k, middle) ← key.read bytes offset
      let (v, stop) ← value.read bytes middle
      return ((k, v), stop)
    let (pairs, stop) ←
      Items.read length limit (Items.pairSize key.size value.size) pair bytes offset
    let entries ← Association.gather kind pairs
    return (.map entries, stop)
  | option header inner, bytes, offset => do
    match ← header.readCount bytes offset with
    | (0, stop) => return (.absent, stop)
    | (1, middle) =>
      let (v, stop) ← inner.read bytes middle
      return (.present v, stop)
    | (tag, _) => Reading.fail (.unknownTag tag)
  | union header variants, bytes, offset => do
    let (tag, middle) ← header.readCount bytes offset
    readCase tag variants bytes middle
  | framed inner header limit, bytes, offset =>
    Frame.read header.readCount limit inner.read bytes offset
  | converted conversion inner, bytes, offset => do
    let (v, stop) ← inner.read bytes offset
    return (conversion.load v, stop)

def readFields : List (Field Schema) → Bytes → Nat → Reading (List Value × Nat)
  | [], _, offset => return ([], offset)
  | f :: fields, bytes, offset => do
    let (v, middle) ← reportField f.name offset (f.schema.read bytes offset)
    let (vs, stop) ← readFields fields bytes middle
    return (v :: vs, stop)

/-- The payload of the variant with the tag. -/
def readCase (tag : Nat) : List (Variant Schema) → Bytes → Nat → Reading (Value × Nat)
  | [], _, offset => do
    Reading.emit (.tagUnknown tag offset)
    Reading.fail (.unknownTag tag)
  | v :: variants, bytes, offset =>
    if v.tag = tag then do
      let (payload, stop) ← v.schema.read bytes offset
      return (.case v.label payload, stop)
    else readCase tag variants bytes offset

end

/-- Input that is not of a fixed size is refused before it is read. -/
def checkSize (size : Size) (bytes : Bytes) : Outcome Unit :=
  match size with
  | .fixed n =>
    if bytes.size < n then Outcome.fail (.endOfInput n 0 bytes.size)
    else if n < bytes.size then Outcome.fail (.extraData (bytes.size - n))
    else .ok ()
  | .varying => .ok ()

/-- The value that the bytes, all of them, stand for. -/
def decode (s : Schema) (bytes : Bytes) : Reading Value := do
  checkSize (← s.size) bytes
  let (v, stop) ← s.read bytes 0
  if stop < bytes.size then Reading.fail (.extraData (bytes.size - stop))
  else return v

end ByteSchema.Schema
