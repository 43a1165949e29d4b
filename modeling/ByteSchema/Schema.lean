import ByteSchema.Content
import ByteSchema.Slot
import ByteSchema.Items
import ByteSchema.Value.Association
import ByteSchema.Conversion

/-!
# Schemas

A schema is a tree whose leaves read and write single values and whose inner nodes put them
together.  The induction principle hands out the hypothesis for every field and every variant, so
that no proof has to go through the lists of them.
-/
namespace ByteSchema

/-- A field of a record.  Only a field with a name is reported when it cannot be read. -/
structure Field (α : Type) where
  name : Option String
  schema : α

/-- A variant of a union, written for the values of its label and read by its tag. -/
structure Variant (α : Type) where
  tag : Nat
  label : String
  schema : α

inductive Schema where
  | int (format : IntFormat)
  | float (precision : Precision) (order : ByteOrder)
  | bool (header : Header)
  | slot (content : Content) (slot : Slot)
  | constant (bytes : List UInt8)
  | record (fields : List (Field Schema))
  | array (item : Schema) (length : Length) (limit : Limit)
  | map (kind : MapKind) (key value : Schema) (length : Length) (limit : Limit)
  | option (header : Header) (inner : Schema)
  | union (header : Header) (variants : List (Variant Schema))
  | framed (inner : Schema) (header : Header) (limit : Limit)
  | converted (conversion : Conversion) (inner : Schema)

namespace Schema

/-- Nothing at all. -/
def unit : Schema := constant []

def tuple (items : List Schema) : Schema := record (items.map fun s => ⟨none, s⟩)

def struct (fields : List (String × Schema)) : Schema :=
  record (fields.map fun f => ⟨some f.1, f.2⟩)

@[induction_eliminator]
theorem induction {motive : Schema → Prop}
    (int : ∀ format, motive (int format))
    (float : ∀ precision order, motive (float precision order))
    (bool : ∀ header, motive (bool header))
    (slot : ∀ content shape, motive (slot content shape))
    (constant : ∀ bytes, motive (constant bytes))
    (record : ∀ fields, (∀ f ∈ fields, motive f.schema) → motive (record fields))
    (array : ∀ item length limit, motive item → motive (array item length limit))
    (map : ∀ kind key value length limit, motive key → motive value →
      motive (map kind key value length limit))
    (option : ∀ header inner, motive inner → motive (option header inner))
    (union : ∀ header variants, (∀ v ∈ variants, motive v.schema) →
      motive (union header variants))
    (framed : ∀ inner header limit, motive inner → motive (framed inner header limit))
    (converted : ∀ conversion inner, motive inner → motive (converted conversion inner))
    (s : Schema) : motive s := by
  refine Schema.rec (motive_1 := motive) (motive_2 := fun fields => ∀ f ∈ fields, motive f.schema)
    (motive_3 := fun variants => ∀ v ∈ variants, motive v.schema)
    (motive_4 := fun f => motive f.schema) (motive_5 := fun v => motive v.schema)
    int float bool slot constant record array map option union framed converted
    ?_ ?_ ?_ ?_ ?_ ?_ s
  · simp
  · intro f fields hf hfields
    simpa using ⟨hf, hfields⟩
  · simp
  · intro v variants hv hvariants
    simpa using ⟨hv, hvariants⟩
  · intro name s hs
    exact hs
  · intro tag label s hs
    exact hs

end Schema
end ByteSchema
