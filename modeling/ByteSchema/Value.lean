import ByteSchema.Number.Floating

/-!
# Values

What a schema reads and writes.  Which constructors fit is up to the schema; a value that does not
fit is refused with the fault `wrongShape`.
-/
namespace ByteSchema

inductive Value where
  | unit
  | bool (b : Bool)
  | int (n : Int)
  | float (x : Floating)
  | text (s : String)
  | bytes (bs : List UInt8)
  | list (items : List Value)
  | map (entries : List (Value × Value))
  | absent
  | present (v : Value)
  | case (label : String) (payload : Value)
  deriving Repr

namespace Value

/-- What `holds` finds in the value.  There is nothing to find in a value of another kind. -/
def shaped {α : Type} (holds : Value → Option α) (v : Value) : Outcome α :=
  match holds v with
  | some a => .ok a
  | none => Outcome.abort .wrongShape

theorem shaped_eq_ok_iff {α : Type} {holds : Value → Option α} {v : Value} {a : α} :
    v.shaped holds = .ok a ↔ holds v = some a := by
  unfold shaped Outcome.abort
  cases holds v <;> simp

/-! The values of one kind, as what they hold. -/

def asUnit : Value → Outcome Unit := shaped fun
  | unit => some ()
  | _ => none

def asBool : Value → Outcome Bool := shaped fun
  | bool b => some b
  | _ => none

def asInt : Value → Outcome Int := shaped fun
  | int n => some n
  | _ => none

def asFloat : Value → Outcome Floating := shaped fun
  | float x => some x
  | _ => none

def asText : Value → Outcome String := shaped fun
  | text s => some s
  | _ => none

def asBytes : Value → Outcome (List UInt8) := shaped fun
  | bytes bs => some bs
  | _ => none

def asList : Value → Outcome (List Value) := shaped fun
  | list items => some items
  | _ => none

def asEntries : Value → Outcome (List (Value × Value)) := shaped fun
  | map entries => some entries
  | _ => none

def asOption : Value → Outcome (Option Value) := shaped fun
  | absent => some none
  | present v => some (some v)
  | _ => none

def asCase : Value → Outcome (String × Value) := shaped fun
  | case label payload => some (label, payload)
  | _ => none

theorem asBool_eq_ok_iff {v : Value} {b : Bool} : v.asBool = .ok b ↔ v = .bool b := by
  rw [asBool, shaped_eq_ok_iff]
  cases v <;> simp

theorem asList_eq_ok_iff {v : Value} {items : List Value} :
    v.asList = .ok items ↔ v = .list items := by
  rw [asList, shaped_eq_ok_iff]
  cases v <;> simp

theorem asEntries_eq_ok_iff {v : Value} {entries : List (Value × Value)} :
    v.asEntries = .ok entries ↔ v = .map entries := by
  rw [asEntries, shaped_eq_ok_iff]
  cases v <;> simp

theorem asOption_eq_ok_none_iff {v : Value} : v.asOption = .ok none ↔ v = .absent := by
  rw [asOption, shaped_eq_ok_iff]
  cases v <;> simp

theorem asOption_eq_ok_some_iff {v w : Value} : v.asOption = .ok (some w) ↔ v = .present w := by
  rw [asOption, shaped_eq_ok_iff]
  cases v <;> simp

theorem asCase_eq_ok_iff {v payload : Value} {label : String} :
    v.asCase = .ok (label, payload) ↔ v = .case label payload := by
  rw [asCase, shaped_eq_ok_iff]
  cases v <;> simp

/-- Values of different kinds compare by kind. -/
def rank : Value → Nat
  | unit => 0
  | bool _ => 1
  | int _ => 2
  | float _ => 3
  | text _ => 4
  | bytes _ => 5
  | list _ => 6
  | map _ => 7
  | absent => 8
  | present _ => 9
  | case _ _ => 10

/-- Singles before doubles, then by pattern. -/
def compareFloats (x y : Floating) : Ordering :=
  (compare x.precision.bytes y.precision.bytes).then (compare x.pattern y.pattern)

mutual

/-- A total order: integers by value, text and bytes bytewise, `false` before `true`, absent before
present, lists item by item, and a case by its label and then its payload. -/
def order : Value → Value → Ordering
  | bool a, w => match w with
    | bool b => compare a b
    | w => compare 1 w.rank
  | int a, w => match w with
    | int b => compare a b
    | w => compare 2 w.rank
  | float a, w => match w with
    | float b => compareFloats a b
    | w => compare 3 w.rank
  | text a, w => match w with
    | text b => compare a b
    | w => compare 4 w.rank
  | bytes a, w => match w with
    | bytes b => compare a b
    | w => compare 5 w.rank
  | list a, w => match w with
    | list b => orderLists a b
    | w => compare 6 w.rank
  | map a, w => match w with
    | map b => orderEntries a b
    | w => compare 7 w.rank
  | present a, w => match w with
    | present b => order a b
    | w => compare 9 w.rank
  | case l a, w => match w with
    | case m b => (compare l m).then (order a b)
    | w => compare 10 w.rank
  | unit, w => compare 0 w.rank
  | absent, w => compare 8 w.rank

def orderLists : List Value → List Value → Ordering
  | [], [] => .eq
  | [], _ :: _ => .lt
  | _ :: _, [] => .gt
  | a :: as, b :: bs => (order a b).then (orderLists as bs)

def orderEntries : List (Value × Value) → List (Value × Value) → Ordering
  | [], [] => .eq
  | [], _ :: _ => .lt
  | _ :: _, [] => .gt
  | (k, a) :: as, (l, b) :: bs => ((order k l).then (order a b)).then (orderEntries as bs)

end

end Value
end ByteSchema
