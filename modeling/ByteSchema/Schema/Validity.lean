import ByteSchema.Schema.Size

/-!
# Valid schemas

What a schema has to pass before it is used: no array of any number of empty items, no fixed array
larger than memory, no tag declared twice.  The first fault from the inside out, and from left to
right, is the one that is answered.
-/
namespace ByteSchema.Schema

mutual

def validate : Schema → Outcome Unit
  | int _ | float _ _ | bool _ | slot _ _ | constant _ => .ok ()
  | record fields => validateFields fields
  | array item length _ => do
    item.validate
    Items.validate length (← item.size)
  | map _ key value length _ => do
    key.validate
    value.validate
    Items.validate length (← Items.pairSize key.size value.size)
  | option _ inner => inner.validate
  | union _ variants => validateVariants [] variants
  | framed inner _ _ => inner.validate
  | converted _ inner => inner.validate

def validateFields : List (Field Schema) → Outcome Unit
  | [] => .ok ()
  | f :: fields => do
    f.schema.validate
    validateFields fields

/-- `tags` are those of the variants before. -/
def validateVariants (tags : List Nat) : List (Variant Schema) → Outcome Unit
  | [] => .ok ()
  | v :: variants => do
    v.schema.validate
    if v.tag ∈ tags then Outcome.abort (.duplicateTag v.tag)
    else validateVariants (v.tag :: tags) variants

end

end ByteSchema.Schema
