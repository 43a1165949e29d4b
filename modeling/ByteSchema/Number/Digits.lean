/-!
# Numbers as base-256 digits

Digits stand least significant first; `ByteOrder.arrange` turns them into memory order.  Writing
and reading `width` digits are inverse to each other below `span width`.
-/
namespace ByteSchema

/-- How many numbers have `width` base-256 digits. -/
def span (width : Nat) : Nat := Nat.pow 256 width

theorem span_succ (width : Nat) : span (width + 1) = 256 * span width := Nat.pow_succ'

/-- The `width` lowest base-256 digits of a number. -/
def toDigits : Nat → Nat → List UInt8
  | 0, _ => []
  | width + 1, n => UInt8.ofNat n :: toDigits width (n / 256)

def ofDigits : List UInt8 → Nat
  | [] => 0
  | b :: bs => b.toNat + 256 * ofDigits bs

@[simp] theorem length_toDigits (width n : Nat) : (toDigits width n).length = width := by
  induction width generalizing n with
  | zero => rfl
  | succ width ih => simp [toDigits, ih]

theorem ofDigits_toDigits (width n : Nat) : ofDigits (toDigits width n) = n % span width := by
  induction width generalizing n with
  | zero => simp [toDigits, ofDigits, span, Nat.mod_one]
  | succ width ih =>
    have h : (UInt8.ofNat n).toNat = n % 256 := UInt8.toNat_ofNat'
    rw [toDigits, ofDigits, ih, h, span_succ, Nat.mod_mul]

theorem ofDigits_lt (bs : List UInt8) : ofDigits bs < span bs.length := by
  induction bs with
  | nil => simp [ofDigits, span]
  | cons b bs ih =>
    have h : b.toNat < 256 := b.toNat_lt
    simp only [ofDigits, List.length_cons, span_succ]
    omega

theorem toDigits_ofDigits (bs : List UInt8) : toDigits bs.length (ofDigits bs) = bs := by
  induction bs with
  | nil => rfl
  | cons b bs ih =>
    have h : b.toNat < 256 := b.toNat_lt
    have low : UInt8.ofNat (b.toNat + 256 * ofDigits bs) = b := by
      apply UInt8.toNat_inj.mp
      rw [UInt8.toNat_ofNat']
      omega
    have high : (b.toNat + 256 * ofDigits bs) / 256 = ofDigits bs := by omega
    simp only [ofDigits, List.length_cons, toDigits, low, high, ih]

inductive ByteOrder where
  | little | big
  deriving DecidableEq, Repr

namespace ByteOrder

/-- Digits in memory order, and back. -/
def arrange : ByteOrder → List UInt8 → List UInt8
  | little, bs => bs
  | big, bs => bs.reverse

@[simp] theorem length_arrange (order : ByteOrder) (bs : List UInt8) :
    (order.arrange bs).length = bs.length := by
  cases order <;> simp [arrange]

@[simp] theorem arrange_arrange (order : ByteOrder) (bs : List UInt8) :
    order.arrange (order.arrange bs) = bs := by
  cases order <;> simp [arrange]

end ByteOrder
end ByteSchema
