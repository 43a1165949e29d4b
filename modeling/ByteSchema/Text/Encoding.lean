import ByteSchema.Failure
import ByteSchema.Text.Utf8
import ByteSchema.Text.Base16
import ByteSchema.Text.Base58
import ByteSchema.Text.Base64

/-!
# Texts as bytes

The bytes that a text stands for under an encoding, and the text that bytes are written as.  Under
`utf8` every text stands for bytes but not all bytes are a text; the other three are the opposite.
-/
namespace ByteSchema.Encoding

/-- A defect as the error of its encoding. -/
def refuse {α : Type} (e : Encoding) : Except TextDefect α → Outcome α
  | .ok a => .ok a
  | .error defect => Outcome.fail (.invalidText e defect)

def toBytes (e : Encoding) (text : String) : Outcome (List UInt8) :=
  match e with
  | utf8 => .ok (Utf8.toBytes text)
  | base16 => refuse base16 (Base16.decode (Utf8.toBytes text))
  | base58 => refuse base58 (Base58.decode (Utf8.toBytes text))
  | base64 => refuse base64 (Base64.decode (Utf8.toBytes text))

def toText (e : Encoding) (bytes : List UInt8) : Outcome String :=
  match e with
  | utf8 => refuse utf8 (Utf8.toText bytes)
  | base16 => .ok (String.ofList (Base16.encode bytes))
  | base58 => .ok (String.ofList (Base58.encode bytes))
  | base64 => .ok (String.ofList (Base64.encode bytes))

end ByteSchema.Encoding
