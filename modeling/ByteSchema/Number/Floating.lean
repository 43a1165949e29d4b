import ByteSchema.Bytes
import ByteSchema.Number.Digits

/-!
# Binary floating point numbers by their bits

A finite number is `significand * 2 ^ power`; all rounding is done on these two.  Narrowing rounds
to nearest with ties to even, widening is exact, and a number keeps its bits where the precision
stays the same.
-/
namespace ByteSchema

inductive Precision where
  | single | double
  deriving DecidableEq, Repr

namespace Precision

def bytes : Precision → Nat
  | single => 4
  | double => 8

def fractionBits : Precision → Nat
  | single => 23
  | double => 52

/-- The exponent field that infinities and NaNs have. -/
def topExponent : Precision → Nat
  | single => 255
  | double => 2047

/-- Every finite number is a multiple of two to this power. -/
def leastPower : Precision → Int
  | single => -149
  | double => -1074

/-- The bit that a normal number has above its fraction. -/
def hiddenBit (p : Precision) : Nat := 1 <<< p.fractionBits

/-- The pattern with the sign bit alone. -/
def signBit (p : Precision) : Nat := 1 <<< (8 * p.bytes - 1)

end Precision

inductive Floating where
  | single (bits : UInt32)
  | double (bits : UInt64)
  deriving DecidableEq, Repr

/-- `n / d` to the nearest integer, a half to the even neighbour. -/
def roundHalfEven (n d : Nat) : Nat :=
  if 2 * (n % d) < d ∨ (2 * (n % d) = d ∧ n / d % 2 = 0) then n / d else n / d + 1

namespace Floating

def precision : Floating → Precision
  | single _ => .single
  | double _ => .double

def pattern : Floating → Nat
  | single bits => bits.toNat
  | double bits => bits.toNat

def ofPattern : Precision → Nat → Floating
  | .single, n => single (UInt32.ofNat n)
  | .double, n => double (UInt64.ofNat n)

def negative (x : Floating) : Bool := x.precision.signBit ≤ x.pattern

def exponent (x : Floating) : Nat :=
  x.pattern % x.precision.signBit / x.precision.hiddenBit

def fraction (x : Floating) : Nat := x.pattern % x.precision.hiddenBit

def finite (x : Floating) : Bool := x.exponent < x.precision.topExponent

def significand (x : Floating) : Nat :=
  if x.exponent = 0 then x.fraction else x.precision.hiddenBit + x.fraction

def power (x : Floating) : Int := (x.exponent - 1 : Nat) + x.precision.leastPower

/-- The unsigned pattern of the number nearest to `m * 2 ^ q`, ties to even.  Exponent and fraction
are added up, so a carry out of the fraction raises the exponent, up to infinity. -/
def nearest (p : Precision) (m : Nat) (q : Int) : Nat :=
  if m = 0 then 0
  else
    let unit : Int := Max.max (q + Nat.log2 m - p.fractionBits) p.leastPower
    let units := roundHalfEven (m <<< (q - unit).toNat) (1 <<< (unit - q).toNat)
    Min.min (units + (unit - p.leastPower).toNat * p.hiddenBit) (p.topExponent * p.hiddenBit)

/-- The unsigned pattern of an infinity or a quiet NaN in another precision. -/
def special (p : Precision) (x : Floating) : Nat :=
  let quiet := p.hiddenBit / 2
  let payload := x.fraction * p.hiddenBit / x.precision.hiddenBit
  p.topExponent * p.hiddenBit + if x.fraction = 0 then 0 else quiet + payload % quiet

def convert (p : Precision) (x : Floating) : Floating :=
  if x.precision = p then x
  else
    ofPattern p ((if x.negative then p.signBit else 0) +
      if x.finite then nearest p x.significand x.power else special p x)

def largestSingle : Floating := single 0x7f7fffff

/-- Whether `x` is larger than `y` in absolute value, both finite. -/
def exceeds (x y : Floating) : Bool :=
  y.significand <<< (y.power - x.power).toNat < x.significand <<< (x.power - y.power).toNat

/-- The number in precision `p`; a finite number beyond the range of `p` has none. -/
def fit (p : Precision) (x : Floating) : Outcome Floating :=
  if p = .single ∧ x.finite ∧ x.exceeds largestSingle then
    Outcome.fail (.floatOutOfRange (UInt64.ofNat x.pattern))
  else
    .ok (x.convert p)

def write (p : Precision) (order : ByteOrder) (x : Floating) (offset : Nat) : Writing Nat := do
  let y ← x.fit p
  Writing.put offset (order.arrange (toDigits p.bytes y.pattern))

def read (p : Precision) (order : ByteOrder) (bytes : Bytes) (offset : Nat) :
    Outcome (Floating × Nat) := do
  let found ← bytes.window offset p.bytes
  return (ofPattern p (ofDigits (order.arrange found.toList)), ← checkedAdd offset p.bytes)

end Floating
end ByteSchema
