import ByteSchema.Text.Defect

/-!
# Base 58

The bytes are one big-endian number and the text is its numeral in base 58.  Leading zero bytes,
which the number does not show, are written as one `1` each.
-/
namespace ByteSchema.Base58

def alphabet : List Char := "123456789ABCDEFGHJKLMNPQRSTUVWXYZabcdefghijkmnopqrstuvwxyz".toList

/-- The digits of `n` in `base`, most significant first and in front of `digits`, at most `fuel` of
them; a number has no more digits than its value. -/
def digitsBefore (base : Nat) : Nat → Nat → List Nat → List Nat
  | 0, _, digits => digits
  | fuel + 1, n, digits =>
    if n = 0 then digits else digitsBefore base fuel (n / base) (n % base :: digits)

def digits (base n : Nat) : List Nat := digitsBefore base n n []

def number (base : Nat) (digits : List Nat) : Nat :=
  digits.foldl (fun n d => base * n + d) 0

def encode (bytes : List UInt8) : List Char :=
  let zeros := (bytes.takeWhile (· == 0)).length
  List.replicate zeros '1' ++
    (digits 58 (number 256 (bytes.map (·.toNat)))).map (alphabet.getD · '1')

/-- The digit values of a text from `index` on, behind those of `done` (last first). -/
def valuesAfter : List Nat → Nat → List UInt8 → Except TextDefect (List Nat)
  | done, _, [] => .ok done.reverse
  | done, index, b :: rest =>
    if 128 ≤ b.toNat then .error (.nonAscii index)
    else
      match alphabet.idxOf? (Char.ofNat b.toNat) with
      | none => .error (.badCharacter b index)
      | some value => valuesAfter (value :: done) (index + 1) rest

def decode (text : List UInt8) : Except TextDefect (List UInt8) := do
  let values ← valuesAfter [] 0 text
  let zeros := (values.takeWhile (· == 0)).length
  return List.replicate zeros 0 ++ (digits 256 (number 58 values)).map UInt8.ofNat

end ByteSchema.Base58
