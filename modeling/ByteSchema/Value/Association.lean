import ByteSchema.Reading
import ByteSchema.Value

/-!
# Associations

Lists of entries in which no key stands twice.  Inserting a key that is there replaces its value and
keeps its place; a new key goes to the end or to its place in the order of keys.  An association
without an order of its own is kept by key, so that it has one form.
-/
namespace ByteSchema

inductive MapKind where
  | insertion | ascending | unordered
  deriving DecidableEq, Repr

namespace Association

abbrev Entries := List (Value × Value)

def hasKey (k : Value) (entries : Entries) : Bool :=
  entries.any fun e => k.order e.1 == .eq

def insertLast (k v : Value) : Entries → Entries
  | [] => [(k, v)]
  | e :: rest => if k.order e.1 = .eq then (e.1, v) :: rest else e :: insertLast k v rest

def insertByKey (k v : Value) : Entries → Entries
  | [] => [(k, v)]
  | e :: rest =>
    match k.order e.1 with
    | .lt => (k, v) :: e :: rest
    | .eq => (e.1, v) :: rest
    | .gt => e :: insertByKey k v rest

def insert (kind : MapKind) (entries : Entries) (pair : Value × Value) : Entries :=
  match kind with
  | .insertion => insertLast pair.1 pair.2 entries
  | .ascending | .unordered => insertByKey pair.1 pair.2 entries

/-- The pairs inserted one after the other. -/
def ofPairs (kind : MapKind) (pairs : List (Value × Value)) : Entries :=
  pairs.foldl (insert kind) []

/-- Inserts the pairs from `index` on and reports each that overwrites a value, behind the events
of `log` (last first). -/
def gatherAfter (kind : MapKind) (log : List Event) :
    Nat → Entries → List (Value × Value) → Reading Entries
  | _, entries, [] => ⟨log.reverse, .ok entries⟩
  | index, entries, pair :: pairs =>
    let log := if hasKey pair.1 entries then .keyOverwritten index :: log else log
    gatherAfter kind log (index + 1) (insert kind entries pair) pairs

def gather (kind : MapKind) (pairs : List (Value × Value)) : Reading Entries :=
  gatherAfter kind [] 0 [] pairs

end Association
end ByteSchema
