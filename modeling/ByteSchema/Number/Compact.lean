import ByteSchema.Reading

/-!
# Compact 16-bit numbers

Seven bits a byte, least significant first, the high bit set on every byte but the last.  A number
has one encoding of one to three bytes: a redundant zero group is refused when reading.
-/
namespace ByteSchema.Compact

/-- How many bits the binary numeral of `n` has; zero has none. -/
def bitLength (n : Nat) : Nat := if n = 0 then 0 else Nat.log2 n + 1

def size (n : Nat) : Nat := max 1 ((bitLength n + 6) / 7)

/-- The `count` lowest groups of seven bits. -/
def groups : Nat → Nat → List UInt8
  | 0, _ => []
  | 1, n => [UInt8.ofNat (n % 128)]
  | count + 2, n => UInt8.ofNat (n % 128 + 128) :: groups (count + 1) (n / 128)

def write (n offset : Nat) : Writing Nat :=
  Writing.put offset (groups (size n) n)

/-- Reads groups `i`, `i + 1`, … with `left` of them allowed, above the bits already in `low`. -/
def readGroups (bytes : Bytes) (offset : Nat) : Nat → Nat → Nat → Outcome (Nat × Nat)
  | 0, _, _ => Outcome.fail .invalidVarint
  | left + 1, i, low => do
    let position ← checkedAdd offset i
    match bytes[position]? with
    | none => Outcome.fail (.endOfInput (i + 1) offset (bytes.size - offset))
    | some byte =>
      let n := low + (byte.toNat % 128) <<< (7 * i)
      if 128 ≤ byte.toNat then readGroups bytes offset left (i + 1) n
      else if byte = 0 ∧ 0 < i then Outcome.fail .invalidVarint
      else if 65536 ≤ n then Outcome.fail .invalidVarint
      else return (n, ← checkedAdd offset (i + 1))

def read (bytes : Bytes) (offset : Nat) : Outcome (Nat × Nat) := readGroups bytes offset 3 0 0

end ByteSchema.Compact
