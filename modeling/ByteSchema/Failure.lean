import ByteSchema.Text.Defect

/-!
# Errors, faults and outcomes

An `Error` is what a value or the bytes may do wrong; every error carries its cause and no text.
A `Fault` is what only the schema or the size of the machine's addresses can cause: nothing in this
file says that a fault is out of reach.
-/
namespace ByteSchema

inductive Error where
  | endOfInput (expected offset remaining : Nat)
  | intOutOfRange (format : String) (value min max : Int)
  /-- A double, given by its bits, that lies beyond every single. -/
  | floatOutOfRange (bits : UInt64)
  | unknownTag (tag : Nat)
  | unmatchedVariant
  | lengthMismatch (expected found : Nat)
  | misaligned (remaining itemSize : Nat)
  | invalidText (encoding : Encoding) (defect : TextDefect)
  | extraData (count : Nat)
  | lengthExceeded (found max : Nat)
  | invalidLength (length : Nat)
  | invalidVarint
  | invalidBool
  | invalidConstant (expected found : List UInt8)
  deriving DecidableEq, Repr

inductive Fault where
  | additionOverflow
  | subtractionOverflow
  | multiplicationOverflow
  | sliceOutOfRange
  /-- A value took another number of bytes than was announced for it. -/
  | writtenLength
  /-- An item of an uncounted array led back to an earlier offset. -/
  | itemWentBack
  /-- The value is not of the kind that the schema writes. -/
  | wrongShape
  | zeroSizeItems
  | arrayTooLarge (count size : Nat)
  | duplicateTag (tag : Nat)
  deriving DecidableEq, Repr

inductive Failure where
  | error (cause : Error)
  | fault (cause : Fault)
  deriving DecidableEq, Repr

abbrev Outcome := Except Failure

namespace Outcome

def fail {α : Type} (e : Error) : Outcome α := .error (.error e)

def abort {α : Type} (f : Fault) : Outcome α := .error (.fault f)

end Outcome
end ByteSchema
