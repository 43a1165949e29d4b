import ByteSchema.Text.Defect

/-!
# Base 16

Two hexadecimal digits a byte, of either case when read and lowercase when written.
-/
namespace ByteSchema.Base16

def digit (b : UInt8) : Except TextDefect Nat :=
  let n := b.toNat
  if 48 ≤ n ∧ n ≤ 57 then .ok (n - 48)
  else if 97 ≤ n ∧ n ≤ 102 then .ok (n - 87)
  else if 65 ≤ n ∧ n ≤ 70 then .ok (n - 55)
  else .error (.badDigit b)

def numeral (n : Nat) : Char := if n < 10 then Char.ofNat (48 + n) else Char.ofNat (87 + n)

def encode : List UInt8 → List Char
  | [] => []
  | b :: bs => numeral (b.toNat / 16) :: numeral (b.toNat % 16) :: encode bs

/-- Reads digit pairs behind the bytes of `done` (last first). -/
def decodeAfter : List UInt8 → List UInt8 → Except TextDefect (List UInt8)
  | done, a :: b :: rest => do
    let high ← digit a
    let low ← digit b
    decodeAfter (UInt8.ofNat (16 * high + low) :: done) rest
  | _, [_] => .error .oddDigits
  | done, [] => .ok done.reverse

/-- An odd number of digits is refused before any digit is looked at. -/
def decode (text : List UInt8) : Except TextDefect (List UInt8) :=
  if text.length % 2 = 1 then .error .oddDigits else decodeAfter [] text

end ByteSchema.Base16
