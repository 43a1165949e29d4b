import ByteSchema.Proofs.CompactGroups
import ByteSchema.Proofs.Rendering
import ByteSchema.Proofs.WordBytes

/-!
# The bytes of numbers

An image is the byte string of a value put together without a buffer.  Writing renders it, the size
announced for a number is its length, and reading answers just the number that has its image at the
offset.
-/
namespace ByteSchema

open Bytes

namespace IntFormat

/-- The bytes of an integer. -/
def image (format : IntFormat) (v : Int) : Outcome (List UInt8) := do
  format.checkRange v
  match format with
  | word _ width order => return wordBytes width order v
  | compact => return Compact.groups (Compact.size v.toNat) v.toNat

variable {format : IntFormat} {v : Int} {bs : List UInt8} {n m : Nat}

theorem write_renders (format : IntFormat) (v : Int) :
    Renders (format.write v) (format.image v) := by
  refine Renders.lift fun _ _ => ?_
  cases format with
  | word signed width order => exact .put _
  | compact => exact .put _

theorem encodeSize_of_image (h : format.image v = .ok bs) :
    format.encodeSize v = .ok bs.length := by
  obtain ⟨_, range, h⟩ := Outcome.bind_eq_ok.mp h
  cases format with
  | word signed width order =>
    cases h
    rw [encodeSize, length_wordBytes]
  | compact =>
    cases h
    exact Outcome.bind_eq_ok.mpr ⟨_, range, by rw [Compact.length_groups]; rfl⟩

theorem encodeSize_of_fixed (size : format.size = .fixed n) (h : format.encodeSize v = .ok m) :
    m = n := by
  cases format with
  | word signed width order =>
    cases size
    cases h
    rfl
  | compact => cases size

theorem read_eq_ok_iff {bytes : Bytes} {offset stop : Nat} :
    format.read bytes offset = .ok (v, stop) ↔
      ∃ bs, format.image v = .ok bs ∧ Spans bytes offset bs stop ∧ stop < addressSpace := by
  simp only [image, Outcome.bind_eq_ok, checkRange_eq_ok_iff]
  cases format with
  | word signed width order =>
    simp only [read, Outcome.bind_eq_ok, Outcome.pure_eq_ok, Prod.mk.injEq]
    constructor
    · rintro ⟨found, hwindow, _, hsum, rfl, rfl⟩
      obtain ⟨spans, small, size⟩ := window_spans hwindow
      obtain ⟨_, rfl⟩ := checkedAdd_eq_ok_iff.mp hsum
      rw [← Array.length_toList] at size
      exact ⟨_, ⟨(), ofWordBytes_range size, rfl⟩, by rwa [wordBytes_ofWordBytes size], small⟩
    · rintro ⟨bs, ⟨_, ⟨low, high⟩, rfl⟩, spans, small⟩
      have window := spans.window small
      have total := spans.stop_eq
      rw [length_wordBytes] at window total
      refine ⟨_, window, stop, checkedAdd_eq_ok_iff.mpr ⟨total ▸ small, total⟩, ?_, rfl⟩
      exact ofWordBytes_wordBytes low high
  | compact =>
    simp only [read, Outcome.bind_eq_ok, Outcome.pure_eq_ok, Prod.exists, Prod.mk.injEq,
      Compact.read_eq_ok_iff, min, max]
    constructor
    · rintro ⟨n, _, ⟨range, spans, small⟩, rfl, rfl⟩
      exact ⟨_, ⟨(), by omega, rfl⟩, spans, small⟩
    · rintro ⟨bs, ⟨_, range, rfl⟩, spans, small⟩
      exact ⟨v.toNat, stop, ⟨by omega, spans, small⟩, by omega, rfl⟩

end IntFormat

namespace Floating

/-- The bytes of a floating point number in a precision that has room for it. -/
def image (p : Precision) (order : ByteOrder) (x : Floating) : Outcome (List UInt8) := do
  let y ← x.fit p
  return order.arrange (toDigits p.bytes y.pattern)

variable {p : Precision} {order : ByteOrder} {x : Floating}

theorem write_renders (p : Precision) (order : ByteOrder) (x : Floating) :
    Renders (x.write p order) (x.image p order) :=
  Renders.lift fun _ _ => .put _

theorem length_image {bs : List UInt8} (h : x.image p order = .ok bs) : bs.length = p.bytes := by
  obtain ⟨y, _, h⟩ := Outcome.bind_eq_ok.mp h
  cases h
  rw [ByteOrder.length_arrange, length_toDigits]

/-- A number that was read has the precision it was read in, and its bytes are those it was read
from. -/
theorem read_eq_ok_iff {bytes : Bytes} {offset stop : Nat} :
    Floating.read p order bytes offset = .ok (x, stop) ↔
      x.precision = p ∧
        ∃ bs, x.image p order = .ok bs ∧ Spans bytes offset bs stop ∧ stop < addressSpace := by
  simp only [read, image, Outcome.bind_eq_ok, Outcome.pure_eq_ok, Prod.mk.injEq]
  constructor
  · rintro ⟨found, hwindow, _, hsum, rfl, rfl⟩
    obtain ⟨spans, small, size⟩ := window_spans hwindow
    obtain ⟨_, rfl⟩ := checkedAdd_eq_ok_iff.mp hsum
    have digits : (order.arrange found.toList).length = p.bytes := by
      rw [ByteOrder.length_arrange, Array.length_toList, size]
    have bound := ofDigits_lt (order.arrange found.toList)
    rw [digits] at bound
    have stored := fit_self (ofPattern p (ofDigits (order.arrange found.toList)))
    rw [precision_ofPattern] at stored
    refine ⟨precision_ofPattern _ _, _, ⟨_, stored, rfl⟩, ?_, small⟩
    have back := toDigits_ofDigits (order.arrange found.toList)
    rw [digits] at back
    rwa [pattern_ofPattern bound, back, ByteOrder.arrange_arrange]
  · rintro ⟨rfl, bs, ⟨y, stored, rfl⟩, spans, small⟩
    rw [fit_self] at stored
    cases stored
    have window := spans.window small
    have total := spans.stop_eq
    rw [ByteOrder.length_arrange, length_toDigits] at window total
    refine ⟨_, window, stop, checkedAdd_eq_ok_iff.mpr ⟨total ▸ small, total⟩, ?_, rfl⟩
    rw [ByteOrder.arrange_arrange, ofDigits_toDigits, Nat.mod_eq_of_lt (pattern_lt x),
      ofPattern_pattern]

end Floating
end ByteSchema
