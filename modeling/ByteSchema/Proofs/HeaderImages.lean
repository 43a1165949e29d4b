import ByteSchema.Header
import ByteSchema.Proofs.NumberImages

/-!
# The bytes of headers and frames

The announced length of a frame is that of the payload's image, so what a frame writes is never
refused on account of its length.  A header is read back exactly where its image stands, as long as
the limits inside it let it pass; frames around other payloads are read by the same lemma.
-/
namespace ByteSchema

open Bytes

namespace Frame

/-- The bytes of a payload behind those of its length. -/
def image (header : Nat → Outcome (List UInt8)) (payload : Outcome (List UInt8)) :
    Outcome (List UInt8) := do
  let bs ← payload
  return (← header bs.length) ++ bs

variable {headerImage : Nat → Outcome (List UInt8)} {payloadImage : Outcome (List UInt8)}

theorem image_eq_ok_iff {bs : List UInt8} :
    image headerImage payloadImage = .ok bs ↔
      ∃ inner outer, payloadImage = .ok inner ∧ headerImage inner.length = .ok outer ∧
        bs = outer ++ inner := by
  simp only [image, Outcome.bind_eq_ok, Outcome.pure_eq_ok]
  constructor
  · rintro ⟨inner, hinner, outer, houter, rfl⟩
    exact ⟨inner, outer, hinner, houter, rfl⟩
  · rintro ⟨inner, outer, hinner, houter, rfl⟩
    exact ⟨inner, hinner, outer, houter, rfl⟩

/-- The payload's size has to be the length of its image; then the check after writing passes. -/
theorem write_renders {header : Nat → Nat → Writing Nat} {payload : Nat → Writing Nat}
    {size : Outcome Nat} (hheader : ∀ n, Renders (header n) (headerImage n))
    (hpayload : Renders payload payloadImage)
    (hsize : ∀ bs, payloadImage = .ok bs → bs.length < addressSpace → size = .ok bs.length) :
    Renders (Frame.write header size payload) (image headerImage payloadImage) where
  sound {offset buffer stop after} h := by
    simp only [Frame.write, Writing.run_bind_eq_ok, Writing.run_lift_eq_ok] at h
    obtain ⟨len, _, ⟨-, rfl⟩, start, middle, hh, stop', after', hp, written, _, ⟨hsub, rfl⟩, h⟩ := h
    obtain ⟨outer, houter, rfl, spliced⟩ := (hheader len).sound hh
    obtain ⟨inner, hinner, rfl, spliced'⟩ := hpayload.sound hp
    obtain ⟨-, rfl⟩ := checkedSub_eq_ok_iff.mp hsub
    by_cases exact : offset + outer.length + inner.length - (offset + outer.length) = len
    · rw [if_pos exact] at h
      obtain ⟨rfl, rfl⟩ := Writing.run_pure_eq_ok.mp h
      have length : inner.length = len := by omega
      refine ⟨outer ++ inner, ?_, ?_, spliced.append spliced'⟩
      · exact image_eq_ok_iff.mpr ⟨inner, outer, hinner, length ▸ houter, rfl⟩
      · rw [List.length_append, Nat.add_assoc]
    · rw [if_neg exact] at h
      exact absurd (Writing.run_of_eq_ok.mp h).1 Outcome.abort_ne_ok
  total {bs} h offset buffer small := by
    obtain ⟨inner, outer, hinner, houter, rfl⟩ := image_eq_ok_iff.mp h
    rw [List.length_append] at small ⊢
    obtain ⟨middle, hh⟩ := (hheader _).total houter offset buffer (by omega)
    obtain ⟨after, hp⟩ := hpayload.total hinner (offset + outer.length) middle (by omega)
    have known := hsize inner hinner (by omega)
    refine ⟨after, ?_⟩
    simp only [Frame.write, Writing.run_bind_eq_ok, Writing.run_lift_eq_ok]
    refine ⟨_, _, ⟨known, rfl⟩, _, _, hh, _, _, hp, inner.length, _, ⟨?_, rfl⟩, ?_⟩
    · exact checkedSub_eq_ok_iff.mpr ⟨by omega, by omega⟩
    · rw [if_pos rfl, Nat.add_assoc]
      rfl

theorem encodeSize_of_image {headerSize : Nat → Outcome Nat} {size : Outcome Nat}
    {bs : List UInt8} (h : image headerImage payloadImage = .ok bs)
    (hheader : ∀ n outer, headerImage n = .ok outer → outer.length < addressSpace →
      headerSize n = .ok outer.length)
    (hsize : ∀ inner, payloadImage = .ok inner → inner.length < addressSpace →
      size = .ok inner.length)
    (small : bs.length < addressSpace) : Frame.encodeSize headerSize size = .ok bs.length := by
  obtain ⟨inner, outer, hinner, houter, rfl⟩ := image_eq_ok_iff.mp h
  rw [List.length_append] at small ⊢
  simp only [Frame.encodeSize, Outcome.bind_eq_ok]
  exact ⟨_, hsize inner hinner (by omega), _, hheader _ outer houter (by omega),
    checkedAdd_eq_ok_iff.mpr ⟨small, rfl⟩⟩

/-- A reader of counts that answers a number exactly where the number's image stands, for the
numbers that it lets pass. -/
def Counts (reader : Bytes → Nat → Reading (Nat × Nat)) (admits : Nat → Prop)
    (image : Nat → Outcome (List UInt8)) : Prop :=
  ∀ {bytes offset log n stop}, reader bytes offset = ⟨log, .ok (n, stop)⟩ ↔
    log = [] ∧ n < addressSpace ∧ admits n ∧
      ∃ bs, image n = .ok bs ∧ Spans bytes offset bs stop ∧ stop < addressSpace

/-- The payload is read from the slice that stands behind its length, and takes all of it. -/
theorem read_eq_ok_iff {α : Type} {reader : Bytes → Nat → Reading (Nat × Nat)}
    {admits : Nat → Prop} (counts : Counts reader admits headerImage) {limit : Limit}
    {payload : Bytes → Nat → Reading (α × Nat)} {bytes : Bytes} {offset stop : Nat}
    {log : List Event} {a : α} :
    Frame.read reader limit payload bytes offset = ⟨log, .ok (a, stop)⟩ ↔
      ∃ outer inner middle, limit.contains inner.length = true ∧ admits inner.length ∧
        headerImage inner.length = .ok outer ∧ Spans bytes offset outer middle ∧
        Spans bytes middle inner stop ∧ stop < addressSpace ∧
        payload inner.toArray 0 = ⟨log, .ok (a, inner.length)⟩ := by
  simp only [Frame.read, Reading.bind_eq_ok, Reading.lift_eq_ok, Prod.exists,
    Limit.check_eq_ok_iff]
  constructor
  · rintro ⟨_, len, middle, _, hheader, ⟨_, _, _, ⟨within, rfl⟩, ⟨_, inside, _, ⟨hwindow, rfl⟩,
      ⟨log, a', consumed, _, hpayload, h, rfl⟩, rfl⟩, rfl⟩, rfl⟩
    obtain ⟨rfl, -, admitted, outer, houter, spans, -⟩ := counts.mp hheader
    obtain ⟨spans', small, size⟩ := window_spans hwindow
    rw [← Array.length_toList] at size
    by_cases exact : consumed = len
    · rw [if_pos exact] at h
      simp only [Reading.bind_eq_ok, Reading.lift_eq_ok, Reading.pure_eq_ok, Prod.mk.injEq] at h
      obtain ⟨_, _, _, ⟨hsum, rfl⟩, ⟨⟨rfl, rfl⟩, rfl⟩, rfl⟩ := h
      obtain ⟨-, rfl⟩ := checkedAdd_eq_ok_iff.mp hsum
      subst size
      refine ⟨outer, inside.toList, middle, within, admitted, houter, spans, spans', small, ?_⟩
      simpa [exact] using hpayload
    · rw [if_neg exact] at h
      simp [Reading.bind_eq_ok] at h
  · rintro ⟨outer, inner, middle, within, admitted, houter, spans, spans', small, hpayload⟩
    have total := spans'.stop_eq
    have hheader := counts.mpr ⟨rfl, spans'.length_lt, admitted, outer, houter, spans,
      Nat.lt_of_le_of_lt spans'.le small⟩
    refine ⟨[], _, middle, log, hheader, ⟨[], (), log, ⟨within, rfl⟩, ⟨[], _, log,
      ⟨spans'.window small, rfl⟩, ⟨log, a, _, [], hpayload, ?_, by simp⟩, rfl⟩, rfl⟩, rfl⟩
    rw [if_pos rfl]
    simp only [Reading.bind_eq_ok, Reading.lift_eq_ok, Reading.pure_eq_ok]
    exact ⟨[], stop, [], ⟨checkedAdd_eq_ok_iff.mpr ⟨total ▸ small, total⟩, rfl⟩, ⟨rfl, rfl⟩, rfl⟩

end Frame

namespace Header

/-- The bytes of a count, tag or flag. -/
def image : Header → Nat → Outcome (List UInt8)
  | plain format, n => format.image n
  | framed inner header _, n => Frame.image header.image (inner.image n)

/-- The limits inside a header let the lengths pass that it writes in front of `n`. -/
def Admits : Header → Nat → Prop
  | plain _, _ => True
  | framed inner header limit, n =>
    inner.Admits n ∧
      ∀ len, inner.encodeSize n = .ok len → limit.contains len = true ∧ header.Admits len

theorem image_framed {inner header : Header} {limit : Limit} {n : Nat} :
    (framed inner header limit).image n = Frame.image header.image (inner.image n) := rfl

theorem encodeSize_of_image {header : Header} {n : Nat} {bs : List UInt8}
    (h : header.image n = .ok bs) (small : bs.length < addressSpace) :
    header.encodeSize n = .ok bs.length := by
  induction header generalizing n bs with
  | plain format => exact IntFormat.encodeSize_of_image h
  | framed inner header limit hinner hheader =>
    exact Frame.encodeSize_of_image h (fun _ _ ho fits => hheader ho fits)
      (fun _ hp fits => hinner hp fits) small

theorem write_renders (header : Header) (n : Nat) :
    Renders (header.write n) (header.image n) := by
  induction header generalizing n with
  | plain format => exact IntFormat.write_renders format n
  | framed inner header limit hinner hheader =>
    exact Frame.write_renders hheader (hinner n) fun _ h small => encodeSize_of_image h small

theorem toCount_eq_ok_iff {v : Int} {n : Nat} :
    toCount v = .ok n ↔ v = n ∧ n < addressSpace := by
  unfold toCount
  split
  · rename_i h
    rw [Except.ok.injEq]
    omega
  · rename_i h
    simp only [Outcome.fail_ne_ok, false_iff]
    omega

theorem readCount_eq_ok {header : Header} {bytes : Bytes} {offset n stop : Nat}
    {log : List Event} :
    header.readCount bytes offset = ⟨log, .ok (n, stop)⟩ ↔
      header.read bytes offset = ⟨log, .ok ((n : Int), stop)⟩ ∧ n < addressSpace := by
  simp only [readCount, Reading.bind_eq_ok, Reading.lift_eq_ok, Reading.pure_eq_ok, Prod.exists,
    Prod.mk.injEq, toCount_eq_ok_iff]
  constructor
  · rintro ⟨_, _, _, _, hread, ⟨_, _, _, ⟨⟨rfl, small⟩, rfl⟩, ⟨⟨rfl, rfl⟩, rfl⟩, rfl⟩, rfl⟩
    exact ⟨by simpa using hread, small⟩
  · rintro ⟨hread, small⟩
    exact ⟨log, n, stop, [], hread,
      ⟨[], n, [], ⟨⟨rfl, small⟩, rfl⟩, ⟨⟨rfl, rfl⟩, rfl⟩, rfl⟩, by simp⟩

/-- A count is read exactly where its image stands.  In a frame the count comes from the payload,
and the induction hypothesis for the payload is used at the slice that holds it. -/
theorem readCount_counts (header : Header) :
    Frame.Counts header.readCount header.Admits header.image := by
  induction header with
  | plain format =>
    intro bytes offset log n stop
    rw [readCount_eq_ok]
    simp only [read, Reading.of_eq_ok, IntFormat.read_eq_ok_iff, Admits, image, true_and]
    constructor
    · rintro ⟨⟨h, rfl⟩, small⟩
      exact ⟨rfl, small, h⟩
    · rintro ⟨rfl, small, h⟩
      exact ⟨⟨h, rfl⟩, small⟩
  | framed inner header limit hinner hheader =>
    intro bytes offset log n stop
    rw [readCount_eq_ok]
    change Frame.read header.readCount limit inner.read bytes offset = _ ∧ _ ↔ _
    rw [Frame.read_eq_ok_iff hheader, image_framed]
    constructor
    · rintro ⟨⟨outer, payload, middle, within, admitted, houter, spans, spans', small, h⟩, fits⟩
      obtain ⟨rfl, -, admits, bs, himage, whole, -⟩ := hinner.mp (readCount_eq_ok.mpr ⟨h, fits⟩)
      have same := whole.unique (spans_whole _ spans'.length_lt)
      simp only at same
      subst same
      refine ⟨rfl, fits, ⟨admits, fun len hlen => ?_⟩, outer ++ bs,
        Frame.image_eq_ok_iff.mpr ⟨bs, outer, himage, houter, rfl⟩, spans.append spans', small⟩
      rw [encodeSize_of_image himage spans'.length_lt] at hlen
      cases hlen
      exact ⟨within, admitted⟩
    · rintro ⟨rfl, fits, ⟨admits, admitted⟩, bs, himage, spans, small⟩
      obtain ⟨payload, outer, hpayload, houter, rfl⟩ := Frame.image_eq_ok_iff.mp himage
      obtain ⟨middle, first, second⟩ := spans.of_append
      obtain ⟨within, passes⟩ := admitted _ (encodeSize_of_image hpayload second.length_lt)
      have whole := spans_whole payload.toArray second.length_lt
      have h := hinner.mpr ⟨rfl, fits, admits, payload, hpayload, whole, second.length_lt⟩
      exact ⟨⟨outer, payload, middle, within, passes, houter, first, second, small,
        (readCount_eq_ok.mp h).1⟩, fits⟩

theorem size_framed_eq_fixed {inner header : Header} {limit : Limit} {k : Nat}
    (h : (framed inner header limit).size = .ok (.fixed k)) :
    ∃ x y, header.size = .ok (.fixed x) ∧ inner.size = .ok (.fixed y) ∧ k = x + y := by
  obtain ⟨outer, houter, h⟩ := Outcome.bind_eq_ok.mp h
  obtain ⟨payload, hpayload, h⟩ := Outcome.bind_eq_ok.mp h
  obtain ⟨x, y, rfl, rfl, -, rfl⟩ := Size.add_eq_fixed_iff.mp h
  exact ⟨x, y, houter, hpayload, rfl⟩

theorem length_image_of_fixed {header : Header} {k n : Nat} {bs : List UInt8}
    (size : header.size = .ok (.fixed k)) (h : header.image n = .ok bs) : bs.length = k := by
  induction header generalizing k n bs with
  | plain format =>
    exact IntFormat.encodeSize_of_fixed (Except.ok.inj size) (IntFormat.encodeSize_of_image h)
  | framed inner header limit hinner hheader =>
    obtain ⟨x, y, hx, hy, rfl⟩ := size_framed_eq_fixed size
    obtain ⟨payload, outer, hp, ho, rfl⟩ := Frame.image_eq_ok_iff.mp h
    rw [List.length_append, hheader hx ho, hinner hy hp]

theorem encodeSize_of_fixed {header : Header} {k n m : Nat} (size : header.size = .ok (.fixed k))
    (h : header.encodeSize n = .ok m) : m = k := by
  induction header generalizing k n m with
  | plain format => exact IntFormat.encodeSize_of_fixed (Except.ok.inj size) h
  | framed inner header limit hinner hheader =>
    obtain ⟨x, y, hx, hy, rfl⟩ := size_framed_eq_fixed size
    obtain ⟨len, hlen, h⟩ := Outcome.bind_eq_ok.mp h
    obtain ⟨outer, houter, h⟩ := Outcome.bind_eq_ok.mp h
    obtain ⟨-, rfl⟩ := checkedAdd_eq_ok_iff.mp h
    rw [hheader hx houter, hinner hy hlen]

end Header
end ByteSchema
