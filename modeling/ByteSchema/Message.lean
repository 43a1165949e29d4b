import ByteSchema.Reading
import ByteSchema.Number.Decimal

/-!
# The wording of errors, faults and events
-/
namespace ByteSchema

/-- Two hexadecimal digits. -/
def hexByte (b : UInt8) : String :=
  String.ofList ((if b < 16 then ['0'] else []) ++ Nat.toDigits 16 b.toNat)

def hexList (bs : List UInt8) : String :=
  "[" ++ ", ".intercalate (bs.map hexByte) ++ "]"

def outOfRange (format value min max : String) : String :=
  s!"{format} out of range: {value} not in [{min}, {max}]"

def Error.message : Error → String
  | endOfInput expected offset remaining =>
    s!"unexpected end of input: needed {expected} bytes at offset {offset}, {remaining} remaining"
  | intOutOfRange format value min max =>
    outOfRange format (toString value) (toString min) (toString max)
  | floatOutOfRange bits =>
    let largest := Decimal.text Floating.largestSingle
    outOfRange "f32" (Decimal.text (.double bits)) ("-" ++ largest) largest
  | unknownTag tag => s!"invalid discriminant: {tag}"
  | unmatchedVariant => "value matches no declared variant"
  | lengthMismatch expected found => s!"length mismatch: expected {expected}, found {found}"
  | misaligned remaining itemSize =>
    s!"misaligned remainder: {remaining} bytes is not a multiple of {itemSize}"
  | invalidText encoding defect => s!"invalid {encoding.name} text: {defect.message}"
  | extraData count => s!"extra data found: {count} bytes"
  | lengthExceeded found max => s!"length exceeded: {found} > {max}"
  | invalidLength length => s!"invalid length: {length}"
  | invalidVarint => "invalid varint"
  | invalidBool => "invalid bool"
  | invalidConstant expected found =>
    s!"invalid constant: expected {hexList expected}, found {hexList found}"

def Fault.message : Fault → String
  | additionOverflow => "attempt to add with overflow"
  | subtractionOverflow => "attempt to subtract with overflow"
  | multiplicationOverflow => "attempt to multiply with overflow"
  | sliceOutOfRange => "slice index out of range"
  | writtenLength => "write() did not write expected bytes"
  | itemWentBack => "item ends before its start"
  | wrongShape => "value is not of the kind that the schema writes"
  | zeroSizeItems => "array of zero-size items needs a fixed count"
  | arrayTooLarge count size =>
    s!"fixed array size overflows usize: {count} items of {size} bytes"
  | duplicateTag tag => s!"duplicate variant tag: {tag}"

inductive Level where
  | debug | trace
  deriving DecidableEq, Repr

namespace Event

def level : Event → Level
  | keyOverwritten _ => .trace
  | _ => .debug

def message : Event → String
  | fieldFailed .. => "failed to decode field"
  | tagUnknown .. => "invalid discriminant"
  | frameMismatch .. => "size prefix mismatch"
  | keyOverwritten _ => "duplicate map key overwritten"

/-- The details of an event, by name. -/
def attributes : Event → List (String × String)
  | fieldFailed name offset cause =>
    [("field", name), ("offset", toString offset), ("err", cause.message)]
  | tagUnknown tag offset => [("tag", toString tag), ("offset", toString offset)]
  | frameMismatch offset expected consumed =>
    [("offset", toString offset), ("expected", toString expected),
      ("consumed", toString consumed)]
  | keyOverwritten index => [("index", toString index)]

end Event
end ByteSchema
