import ByteSchema.Schema.Read

/-!
# Where a reading fails

The outcome of a reading does not tell which of its steps has failed.  The walks in this file are
those of the readers, without the events but with the place of a failure: what failed, and what it
was inside of.
-/
namespace ByteSchema

/-- What has failed, if the failure alone does not tell. -/
inductive Cause where
  /-- A limit does not let the length pass that was read. -/
  | excluded (limit : Limit) (length : Nat)
  /-- No variant has the tag that was read up to `offset`. -/
  | undeclared (tag offset : Nat)
  /-- The payload of the frame at `offset` took another length than announced. -/
  | mismatched (offset expected consumed : Nat)
  | other
  deriving DecidableEq, Repr

/-- The place of a failure, from the outside in. -/
inductive Site where
  | here (cause : Cause)
  /-- In the payload of a frame, where offsets start over. -/
  | payload (inside : Site)
  /-- In the field that starts at `offset`. -/
  | field (name : String) (offset : Nat) (inside : Site)
  deriving DecidableEq, Repr

namespace Site

def cause : Site → Cause
  | here cause => cause
  | payload inside => inside.cause
  | field _ _ inside => inside.cause

/-- Whether the failure arose in the payload of a frame. -/
def framed : Site → Bool
  | here _ => false
  | payload _ => true
  | field _ _ inside => inside.framed

end Site

structure Located where
  failure : Failure
  site : Site
  deriving DecidableEq, Repr

/-- A reading step without events that knows where it has failed. -/
abbrev Tracing := Except Located

namespace Tracing

variable {α β : Type}

def of (cause : Cause) : Outcome α → Tracing α
  | .ok a => .ok a
  | .error e => .error ⟨e, .here cause⟩

instance : MonadLift Outcome Tracing := ⟨of .other⟩

/-- The step as a part of something that it is placed in. -/
def inside (place : Site → Site) : Tracing α → Tracing α
  | .ok a => .ok a
  | .error l => .error ⟨l.failure, place l.site⟩

/-- What is left when the places are forgotten. -/
def outcome : Tracing α → Outcome α
  | .ok a => .ok a
  | .error l => .error l.failure

/-- The failure with its place, if there is one. -/
def located : Tracing α → Option Located
  | .ok _ => none
  | .error l => some l

/-- `n` items one after the other, the first at `offset`. -/
def times (item : Nat → Tracing (α × Nat)) : Nat → Nat → Tracing (List α × Nat)
  | 0, offset => return ([], offset)
  | n + 1, offset => do
    let (a, next) ← item offset
    let (as, stop) ← times item n next
    return (a :: as, stop)

/-- Items one after the other until `stop`, with room for `fuel` more of them. -/
def toEnd (item : Nat → Tracing (α × Nat)) (stop : Nat) : Nat → Nat → Tracing (List α × Nat)
  | fuel, offset =>
    if stop ≤ offset then return ([], offset)
    else do
      let (a, next) ← item offset
      if next = offset then (Outcome.fail (.misaligned (stop - offset) 0) : Outcome _)
      else
        match fuel with
        | 0 => (Outcome.abort .itemWentBack : Outcome _)
        | fuel + 1 =>
          let (as, last) ← toEnd item stop fuel next
          return (a :: as, last)

@[simp] theorem outcome_ok (a : α) : outcome (.ok a) = .ok a := rfl

@[simp] theorem outcome_error (l : Located) :
    outcome (.error l : Tracing α) = .error l.failure := rfl

theorem eq_ok_of_outcome {x : Tracing α} {a : α} (h : x.outcome = .ok a) : x = .ok a := by
  cases x with
  | ok b => exact congrArg Except.ok (Except.ok.inj h)
  | error l => cases h

end Tracing

namespace Frame

variable {α : Type}

def trace (header : Bytes → Nat → Tracing (Nat × Nat)) (limit : Limit)
    (payload : Bytes → Nat → Tracing (α × Nat)) (bytes : Bytes) (offset : Nat) :
    Tracing (α × Nat) := do
  let (len, start) ← header bytes offset
  Tracing.of (.excluded limit len) (limit.check len)
  let inside ← bytes.window start len
  let (a, consumed) ← (payload inside 0).inside .payload
  if consumed = len then
    return (a, ← checkedAdd start len)
  else
    Tracing.of (.mismatched offset len consumed) (Outcome.fail (.lengthMismatch len consumed))

end Frame

namespace Header

def trace : Header → Bytes → Nat → Tracing (Int × Nat)
  | plain format, bytes, offset => format.read bytes offset
  | framed inner header limit, bytes, offset =>
    Frame.trace
      (fun bytes offset => do
        let (v, stop) ← header.trace bytes offset
        return (← toCount v, stop))
      limit inner.trace bytes offset

def traceCount (header : Header) (bytes : Bytes) (offset : Nat) : Tracing (Nat × Nat) := do
  let (v, stop) ← header.trace bytes offset
  return (← toCount v, stop)

end Header

def Length.traceCount (length : Length) (limit : Limit) (bytes : Bytes) (offset : Nat) :
    Tracing (Option Nat × Nat) :=
  match length with
  | fixed n => return (some n, offset)
  | counted header => do
    let (n, start) ← header.traceCount bytes offset
    Tracing.of (.excluded limit n) (limit.check n)
    return (some n, start)
  | remainder => return (none, offset)

def Slot.trace (slot : Slot) (bytes : Bytes) (offset : Nat) : Tracing (List UInt8 × Nat) :=
  match slot.length with
  | .fixed n => do
    let found ← bytes.window offset n
    let stop ← checkedAdd offset n
    return (if slot.strip then trim slot.pad found.toList else found.toList, stop)
  | .counted header => do
    let (len, start) ← header.traceCount bytes offset
    Tracing.of (.excluded slot.limit len) (slot.limit.check len)
    let found ← bytes.window start len
    return (found.toList, ← checkedAdd start len)
  | .remainder => do
    let found ← bytes.rest offset
    return (found.toList, ← checkedAdd offset found.size)

def Items.trace {α : Type} (length : Length) (limit : Limit) (size : Outcome Size)
    (item : Nat → Tracing (α × Nat)) (bytes : Bytes) (offset : Nat) :
    Tracing (List α × Nat) := do
  let (count, start) ← length.traceCount limit bytes offset
  match count with
  | some n =>
    let _ ← size
    Tracing.times item n start
  | none =>
    let rest ← bytes.rest start
    match ← size with
    | .fixed n =>
      if 0 < n ∧ rest.size % n ≠ 0 then (Outcome.fail (.misaligned rest.size n) : Outcome _)
      else Tracing.toEnd item bytes.size (bytes.size - start) start
    | .varying => Tracing.toEnd item bytes.size (bytes.size - start) start

namespace Schema

/-- A flag that is no count is no boolean. -/
def asBoolFailure : Failure → Failure
  | .error (.intOutOfRange ..) => .error .invalidBool
  | failure => failure

def traceBool (header : Header) (bytes : Bytes) (offset : Nat) : Tracing (Value × Nat) :=
  match header.traceCount bytes offset with
  | .ok (0, stop) => .ok (.bool false, stop)
  | .ok (1, stop) => .ok (.bool true, stop)
  | .ok _ => (Outcome.fail .invalidBool : Outcome _)
  | .error l => .error ⟨asBoolFailure l.failure, l.site⟩

/-- The place inside of a field with a name. -/
def fieldSite (name : Option String) (offset : Nat) : Site → Site :=
  match name with
  | some name => .field name offset
  | none => id

/-- A key and the value behind it. -/
def tracePair (key value : Nat → Tracing (Value × Nat)) (offset : Nat) :
    Tracing ((Value × Value) × Nat) := do
  let (k, middle) ← key offset
  let (v, stop) ← value middle
  return ((k, v), stop)

mutual

/-- Reads a value like `read`, without events and with the place of a failure. -/
def trace : Schema → Bytes → Nat → Tracing (Value × Nat)
  | int format, bytes, offset => do
    let (v, stop) ← format.read bytes offset
    return (.int v, stop)
  | float precision order, bytes, offset => do
    let (x, stop) ← Floating.read precision order bytes offset
    return (.float x, stop)
  | bool header, bytes, offset => traceBool header bytes offset
  | slot content shape, bytes, offset => do
    let (found, stop) ← shape.trace bytes offset
    return (← content.ofBytes found, stop)
  | constant expected, bytes, offset => do
    let found ← bytes.window offset expected.length
    if found.toList = expected then
      return (.unit, ← checkedAdd offset expected.length)
    else (Outcome.fail (.invalidConstant expected found.toList) : Outcome _)
  | record fields, bytes, offset => do
    let (vs, stop) ← traceFields fields bytes offset
    return (.list vs, stop)
  | array item length limit, bytes, offset => do
    let (vs, stop) ← Items.trace length limit item.size (item.trace bytes) bytes offset
    return (.list vs, stop)
  | map kind key value length limit, bytes, offset => do
    let (pairs, stop) ← Items.trace length limit (Items.pairSize key.size value.size)
      (tracePair (key.trace bytes) (value.trace bytes)) bytes offset
    return (.map (Association.ofPairs kind pairs), stop)
  | option header inner, bytes, offset => do
    match ← header.traceCount bytes offset with
    | (0, stop) => return (.absent, stop)
    | (1, middle) =>
      let (v, stop) ← inner.trace bytes middle
      return (.present v, stop)
    | (tag, _) => (Outcome.fail (.unknownTag tag) : Outcome _)
  | union header variants, bytes, offset => do
    let (tag, middle) ← header.traceCount bytes offset
    traceCase tag variants bytes middle
  | framed inner header limit, bytes, offset =>
    Frame.trace header.traceCount limit inner.trace bytes offset
  | converted conversion inner, bytes, offset => do
    let (v, stop) ← inner.trace bytes offset
    return (conversion.load v, stop)

def traceFields : List (Field Schema) → Bytes → Nat → Tracing (List Value × Nat)
  | [], _, offset => return ([], offset)
  | f :: fields, bytes, offset => do
    let (v, middle) ← (f.schema.trace bytes offset).inside (fieldSite f.name offset)
    let (vs, stop) ← traceFields fields bytes middle
    return (v :: vs, stop)

def traceCase (tag : Nat) : List (Variant Schema) → Bytes → Nat → Tracing (Value × Nat)
  | [], _, offset => Tracing.of (.undeclared tag offset) (Outcome.fail (.unknownTag tag))
  | v :: variants, bytes, offset =>
    if v.tag = tag then do
      let (payload, stop) ← v.schema.trace bytes offset
      return (.case v.label payload, stop)
    else traceCase tag variants bytes offset

end

end Schema
end ByteSchema
