import ByteSchema.Text.Encoding
import ByteSchema.Value

/-!
# What a slot holds

Bytes as they are, or the bytes of a text.
-/
namespace ByteSchema

inductive Content where
  | raw
  | text (encoding : Encoding)
  deriving DecidableEq, Repr

namespace Content

def toBytes (content : Content) (v : Value) : Outcome (List UInt8) :=
  match content with
  | raw => v.asBytes
  | text e => do e.toBytes (← v.asText)

def ofBytes (content : Content) (bs : List UInt8) : Outcome Value :=
  match content with
  | raw => return .bytes bs
  | text e => return .text (← e.toText bs)

end Content
end ByteSchema
