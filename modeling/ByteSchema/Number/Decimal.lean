import ByteSchema.Number.Floating

/-!
# The shortest decimal numeral of a large floating point number

Only magnitudes that are integers are written here, as digits followed by zeros.  The numeral has
the fewest significant digits of all that read back as the number; of two such it is the nearer.
-/
namespace ByteSchema.Decimal

/-- The numeral next to `v` that is `inside` and ends in the most zeros, at most as many as the last
argument says. -/
def coarsest (inside : Nat → Bool) (v : Nat) : Nat → Nat
  | 0 => v
  | k + 1 =>
    let unit := Nat.pow 10 (k + 1)
    let below := v / unit * unit
    let above := below + unit
    match inside below, inside above with
    | true, true => if v - below < above - v then below else above
    | true, false => below
    | false, true => above
    | false, false => coarsest inside v k

/-- Whether `n` rounds to `x`.  Below a power of two the next number is only half as far away. -/
def roundsTo (x : Floating) (n : Nat) : Bool :=
  let unit := 1 <<< x.power.toNat
  let low := if x.fraction = 0 ∧ 1 < x.exponent then 1 else 2
  let lower := (4 * x.significand - low) * unit
  let upper := (4 * x.significand + 2) * unit
  if x.significand % 2 = 0 then lower ≤ 4 * n ∧ 4 * n ≤ upper else lower < 4 * n ∧ 4 * n < upper

/-- The text of a number that is an integer of at least `2 ^ 53` in absolute value. -/
def text (x : Floating) : String :=
  let v := x.significand <<< x.power.toNat
  (if x.negative then "-" else "") ++
    toString (coarsest (roundsTo x) v (Nat.toDigits 10 v).length)

end ByteSchema.Decimal
