import ByteSchema.Text.Defect

/-!
# UTF-8

Whether bytes are valid is decided by `String` itself.  The scan below only finds the place to name
when they are not: the first byte that starts no character, or at which a character breaks off.
-/
namespace ByteSchema.Utf8

/-- Where a scan stands: between characters, or inside one of which `seen` bytes were read and
`missing` are owed, the next of them between `low` and `high`. -/
inductive Place where
  | between
  | inside (seen missing low high : Nat)
  deriving DecidableEq, Repr

/-- The place after the first byte of a character, if it can be one. -/
def lead (b : Nat) : Option Place :=
  if b < 0x80 then some .between
  else if b < 0xc2 then none
  else if b < 0xe0 then some (.inside 1 1 0x80 0xbf)
  else if b = 0xe0 then some (.inside 1 2 0xa0 0xbf)
  else if b = 0xed then some (.inside 1 2 0x80 0x9f)
  else if b < 0xf0 then some (.inside 1 2 0x80 0xbf)
  else if b = 0xf0 then some (.inside 1 3 0x90 0xbf)
  else if b < 0xf4 then some (.inside 1 3 0x80 0xbf)
  else if b = 0xf4 then some (.inside 1 3 0x80 0x8f)
  else none

/-- The first defect, `index` being where the current character starts.  Bytes without another
defect are cut at their end. -/
def scan : List UInt8 → Place → Nat → TextDefect
  | [], _, index => .cutSequence index
  | b :: bs, .between, index =>
    match lead b.toNat with
    | none => .badSequence 1 index
    | some .between => scan bs .between (index + 1)
    | some place => scan bs place index
  | b :: bs, .inside seen missing low high, index =>
    if low ≤ b.toNat ∧ b.toNat ≤ high then
      if missing = 1 then scan bs .between (index + seen + 1)
      else scan bs (.inside (seen + 1) (missing - 1) 0x80 0xbf) index
    else .badSequence seen index

def toBytes (text : String) : List UInt8 := text.toByteArray.data.toList

def toText (bytes : List UInt8) : Except TextDefect String :=
  match String.fromUTF8? ⟨bytes.toArray⟩ with
  | some text => .ok text
  | none => .error (scan bytes .between 0)

theorem toText_toBytes (text : String) : toText (toBytes text) = .ok text := by
  have h : text.toByteArray.IsValidUTF8 := text.isValidUTF8
  simp [toText, toBytes, String.fromUTF8?, h, String.fromUTF8]

theorem toBytes_of_toText {bytes : List UInt8} {text : String} (h : toText bytes = .ok text) :
    toBytes text = bytes := by
  unfold toText at h
  split at h
  · rename_i s hs
    unfold String.fromUTF8? at hs
    split at hs
    · cases hs
      cases h
      simp [toBytes, String.fromUTF8]
    · cases hs
  · cases h

end ByteSchema.Utf8
