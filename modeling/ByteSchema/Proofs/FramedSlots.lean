import ByteSchema.Schema.Write
import ByteSchema.Proofs.ReadInversion
import ByteSchema.Proofs.Rendering

/-!
# Byte strings behind a length, and frames

A slot that is counted by a header and a frame around the rest of a slice are walked by code of
their own, and come to the same: the same size, the same bytes, the same answer to any input, and
the same failure at the same point.  A frame around any other schema is read as the bytes behind
its header, and then from these bytes alone.
-/
namespace ByteSchema

open Bytes

namespace Writing

/-- All there is to putting bytes: the stop has to be an address. -/
theorem run_put (offset : Nat) (bs : List UInt8) (buffer : Bytes) :
    (put offset bs).run buffer =
      if offset + bs.length < addressSpace then .ok (offset + bs.length) (buffer.splice offset bs)
      else .error (.fault .additionOverflow) buffer := by
  unfold put reserve
  rw [EStateM.run_bind, EStateM.run_bind, run_lift, checkedAdd]
  by_cases small : offset + bs.length < addressSpace
  · simp only [if_pos small]
    rfl
  · simp only [if_neg small]
    rfl

end Writing

variable (header : Header) (limit inner : Limit) (pad pad' : UInt8) (strip strip' : Bool)

namespace Slot

theorem encodeSize_counted (payload : Outcome (List UInt8)) :
    encodeSize ⟨.counted header, pad, strip, limit⟩ payload =
      Frame.encodeSize header.encodeSize
        (encodeSize ⟨.remainder, pad', strip', inner⟩ payload) := by
  cases payload <;> rfl

/-- A frame compares what was written with the length in front of it; bytes that were put are as
many as there are. -/
theorem write_counted (payload : List UInt8) (offset : Nat) (buffer : Bytes) :
    (write ⟨.counted header, pad, strip, limit⟩ payload offset).run buffer =
      (Frame.write header.write (.ok payload.length)
        (write ⟨.remainder, pad', strip', inner⟩ payload) offset).run buffer := by
  change (header.write payload.length offset >>= fun start =>
      Writing.put start payload).run buffer =
    (header.write payload.length offset >>= fun start =>
      Writing.put start payload >>= fun stop => (liftM (checkedSub stop start) : Writing Nat) >>=
        fun written => if written = payload.length then pure stop
          else Writing.of (Outcome.abort .writtenLength)).run buffer
  rw [EStateM.run_bind, EStateM.run_bind]
  cases (header.write payload.length offset).run buffer with
  | error e middle => rfl
  | ok start middle =>
    simp only [EStateM.run_bind, Writing.run_put]
    by_cases small : start + payload.length < addressSpace
    · have difference : checkedSub (start + payload.length) start = .ok payload.length :=
        checkedSub_eq_ok_iff.mpr ⟨by omega, by omega⟩
      simp only [if_pos small, difference, Writing.run_lift, if_true]
      rfl
    · simp only [if_neg small]

end Slot

/-- A window has as many bytes as were asked for, and ends at an address. -/
private theorem window_size {bytes found : Bytes} {start len : Nat}
    (h : bytes.window start len = .ok found) :
    found.size = len ∧ checkedAdd start len = .ok (start + len) := by
  have size := (window_spans h).2.2
  exact ⟨size, checkedAdd_eq_ok_iff.mpr ⟨(window_eq_ok_iff.mp h).2.1, rfl⟩⟩

/-- A frame is read as a byte string behind its length; what the payload answers is then a matter of
these bytes. -/
theorem Frame.read_eq_slot {α : Type} (payload : Bytes → Nat → Reading (α × Nat)) (bytes : Bytes)
    (offset : Nat) :
    Frame.read header.readCount limit payload bytes offset =
      Slot.read ⟨.counted header, pad, strip, limit⟩ bytes offset >>= fun r =>
        payload r.1.toArray 0 >>= fun s =>
          if s.2 = r.1.length then pure (s.1, r.2)
          else Reading.emit (.frameMismatch offset r.1.length s.2) >>= fun _ =>
            Reading.fail (.lengthMismatch r.1.length s.2) := by
  unfold Frame.read Slot.read
  simp only [bind_assoc]
  congr 1
  funext count
  obtain ⟨len, start⟩ := count
  congr 1
  funext _
  cases h : bytes.window start len with
  | error e => rfl
  | ok found =>
    obtain ⟨rfl, stop⟩ := window_size h
    have lifted {β : Type} (a : β) : (liftM (.ok a : Outcome β) : Reading β) = pure a := rfl
    simp only [stop, lifted, pure_bind, Array.toArray_toList, Array.length_toList]

namespace Header

/-- How many integers a header is made of. -/
def integers : Header → Nat
  | plain _ => 1
  | framed inner header _ => header.integers + inner.integers

/-- The size of a header is known unless it is made of more integers than memory can hold. -/
theorem size_of_few {header : Header} (few : 16 * header.integers < addressSpace) :
    ∃ size, header.size = .ok size ∧ ∀ n, size = .fixed n → n ≤ 16 * header.integers := by
  induction header with
  | plain format =>
    refine ⟨format.size, rfl, ?_⟩
    cases format with
    | word signed width order =>
      rintro _ ⟨⟩
      cases width <;> exact Nat.le_of_ble_eq_true rfl
    | compact => rintro _ ⟨⟩
  | framed inner header limit hinner hheader =>
    rw [integers] at few ⊢
    obtain ⟨x, hx, outer⟩ := hheader (by omega)
    obtain ⟨y, hy, payload⟩ := hinner (by omega)
    rw [size, hx, hy]
    cases x with
    | varying => exact ⟨.varying, rfl, fun _ h => by cases h⟩
    | fixed a =>
      cases y with
      | varying => exact ⟨.varying, rfl, fun _ h => by cases h⟩
      | fixed b =>
        have := outer a rfl
        have := payload b rfl
        have sum : (Size.fixed a).add (.fixed b) = .ok (.fixed (a + b)) :=
          Size.add_eq_fixed_iff.mpr ⟨a, b, rfl, rfl, by omega, rfl⟩
        refine ⟨.fixed (a + b), sum, ?_⟩
        rintro _ ⟨⟩
        omega

end Header

namespace Schema

theorem write_counted_slot (content : Content) (v : Value) (offset : Nat) (buffer : Bytes) :
    ((slot content ⟨.counted header, pad, strip, limit⟩).write v offset).run buffer =
      ((framed (slot content ⟨.remainder, pad', strip', inner⟩) header limit).write v
        offset).run buffer := by
  simp only [write, encodeSize]
  cases content.toBytes v with
  | error e => rfl
  | ok payload =>
    exact Slot.write_counted header limit inner pad pad' strip strip' payload offset buffer

/-- The whole of a slice, read as the rest of it. -/
private theorem read_rest (content : Content) {payload : List UInt8}
    (small : payload.length < addressSpace) :
    (slot content ⟨.remainder, pad, strip, limit⟩).read payload.toArray 0 =
      liftM (content.ofBytes payload) >>= fun v => pure (v, payload.length) := by
  have all : Slot.read ⟨.remainder, pad, strip, limit⟩ payload.toArray 0 =
      ⟨[], .ok (payload, payload.length)⟩ := by
    apply (Slot.read_remainder_eq_ok_iff rfl).mpr
    refine ⟨rfl, payload.toArray, ?_, rfl, by simp⟩
    have whole : Spans payload.toArray 0 payload payload.length :=
      ⟨by simp, by simp, .inr small, by simp⟩
    simpa [rest] using whole.window small
  rw [read, all]
  rfl

theorem read_counted_slot (content : Content) (bytes : Bytes) (offset : Nat) :
    (slot content ⟨.counted header, pad, strip, limit⟩).read bytes offset =
      (framed (slot content ⟨.remainder, pad', strip', inner⟩) header limit).read bytes offset := by
  rw [read, read, Frame.read_eq_slot header limit pad strip]
  cases h : Slot.read ⟨.counted header, pad, strip, limit⟩ bytes offset with
  | mk log outcome =>
    cases outcome with
    | error e => rfl
    | ok r =>
      obtain ⟨payload, stop⟩ := r
      obtain ⟨-, len, start, found, -, -, hwindow, rfl, -⟩ :=
        (Slot.read_counted_eq_ok_iff rfl).mp h
      have small : found.toList.length < addressSpace := (window_spans hwindow).1.length_lt
      have same : (liftM (content.ofBytes found.toList) >>= fun v => pure (v, stop)) =
          (slot content ⟨.remainder, pad', strip', inner⟩).read found.toList.toArray 0 >>= fun r =>
            if r.2 = found.toList.length then pure (r.1, stop)
            else Reading.emit (.frameMismatch offset found.toList.length r.2) >>= fun _ =>
              Reading.fail (.lengthMismatch found.toList.length r.2) := by
        rw [read_rest inner pad' strip' content small]
        simp only [bind_assoc, pure_bind, if_true]
      simp only [Reading.ok_bind, ← same]

theorem decode_counted_slot (content : Content) {header : Header} {size : Size}
    (known : header.size = .ok size) (bytes : Bytes) :
    (slot content ⟨.counted header, pad, strip, limit⟩).decode bytes =
      (framed (slot content ⟨.remainder, pad', strip', inner⟩) header limit).decode bytes := by
  have varying : (framed (slot content ⟨.remainder, pad', strip', inner⟩) header limit).size =
      (slot content ⟨.counted header, pad, strip, limit⟩).size := by
    rw [Schema.size, Schema.size, Schema.size, known]
    cases size <;> rfl
  rw [decode, decode, varying, read_counted_slot header limit inner pad pad' strip strip']

variable {header limit}

private theorem read_raw_eq_ok_iff {shape : Slot} {bytes : Bytes} {offset stop : Nat}
    {payload : List UInt8} {log : List Event} :
    (slot .raw shape).read bytes offset = ⟨log, .ok (.bytes payload, stop)⟩ ↔
      shape.read bytes offset = ⟨log, .ok (payload, stop)⟩ := by
  rw [read_slot_eq_ok_iff]
  constructor
  · rintro ⟨found, h, same⟩
    cases same
    exact h
  · intro h
    exact ⟨payload, h, rfl⟩

theorem read_framed_iff_slot {s : Schema} {bytes : Bytes} {offset stop : Nat} {v : Value}
    {log : List Event} :
    (framed s header limit).read bytes offset = ⟨log, .ok (v, stop)⟩ ↔
      ∃ payload,
        (slot .raw ⟨.counted header, pad, strip, limit⟩).read bytes offset =
          ⟨[], .ok (.bytes payload, stop)⟩ ∧
        s.read payload.toArray 0 = ⟨log, .ok (v, payload.length)⟩ := by
  simp only [read_raw_eq_ok_iff]
  change Frame.read header.readCount limit s.read bytes offset = _ ↔ _
  rw [Frame.read_eq_slot header limit pad strip, Reading.bind_eq_ok]
  constructor
  · rintro ⟨l, ⟨payload, middle⟩, m, hslot, h, rfl⟩
    obtain ⟨l', ⟨w, consumed⟩, m', hread, hend, rfl⟩ := Reading.bind_eq_ok.mp h
    obtain ⟨rfl, -⟩ := (Slot.read_counted_eq_ok_iff rfl).mp hslot
    by_cases all : consumed = payload.length
    · rw [if_pos all] at hend
      obtain ⟨heq, rfl⟩ := Reading.pure_eq_ok.mp hend
      cases heq
      rw [all] at hread
      exact ⟨payload, hslot, by simpa using hread⟩
    · rw [if_neg all] at hend
      cases hend
  · rintro ⟨payload, hslot, hread⟩
    refine ⟨[], _, log, hslot, ?_, rfl⟩
    exact Reading.bind_eq_ok.mpr ⟨log, _, [], hread, by rw [if_pos rfl]; rfl, by simp⟩

/-- The value and the events, or the failure, of a frame whose payload is known. -/
theorem read_framed_of_slot {s : Schema} {bytes bytes' : Bytes} {offset stop stop' : Nat}
    {payload : List UInt8}
    (h : (slot .raw ⟨.counted header, pad, strip, limit⟩).read bytes offset =
      ⟨[], .ok (.bytes payload, stop)⟩)
    (h' : (slot .raw ⟨.counted header, pad, strip, limit⟩).read bytes' offset =
      ⟨[], .ok (.bytes payload, stop')⟩) :
    ((framed s header limit).read bytes offset).events =
        ((framed s header limit).read bytes' offset).events ∧
      ((framed s header limit).read bytes offset).outcome.map Prod.fst =
        ((framed s header limit).read bytes' offset).outcome.map Prod.fst := by
  rw [read_raw_eq_ok_iff] at h h'
  rw [read, read, Frame.read_eq_slot header limit pad strip,
    Frame.read_eq_slot header limit pad strip, h, h', Reading.ok_bind, Reading.ok_bind]
  cases s.read payload.toArray 0 with
  | mk log outcome =>
    cases outcome with
    | error e => exact ⟨rfl, rfl⟩
    | ok r =>
      by_cases all : r.2 = payload.length
      · simp [all, Reading.pure_eq, Except.map]
      · simp [all]

variable (header limit)

/-- A byte string behind its length cannot be told from a frame around the rest of a slice: it has
the same size, leaves the same buffer behind and gives the same answer to any input, failures
included.  Only a header that no memory can hold makes a difference, since a frame asks for its
size.  A frame around any schema is the bytes behind its header, whatever they hold, and what the
schema answers depends on these bytes alone. -/
theorem counted_slot_is_frame (content : Content) (s : Schema) :
    (∀ v, (slot content ⟨.counted header, pad, strip, limit⟩).encodeSize v =
      (framed (slot content ⟨.remainder, pad', strip', inner⟩) header limit).encodeSize v) ∧
    (∀ v offset buffer,
      ((slot content ⟨.counted header, pad, strip, limit⟩).write v offset).run buffer =
        ((framed (slot content ⟨.remainder, pad', strip', inner⟩) header limit).write v
          offset).run buffer) ∧
    (∀ bytes offset, (slot content ⟨.counted header, pad, strip, limit⟩).read bytes offset =
      (framed (slot content ⟨.remainder, pad', strip', inner⟩) header limit).read bytes offset) ∧
    (16 * header.integers < addressSpace → ∀ bytes,
      (slot content ⟨.counted header, pad, strip, limit⟩).decode bytes =
        (framed (slot content ⟨.remainder, pad', strip', inner⟩) header limit).decode bytes) ∧
    (∀ bytes offset log v stop, (framed s header limit).read bytes offset = ⟨log, .ok (v, stop)⟩ ↔
      ∃ payload,
        (slot .raw ⟨.counted header, pad, strip, limit⟩).read bytes offset =
          ⟨[], .ok (.bytes payload, stop)⟩ ∧
        s.read payload.toArray 0 = ⟨log, .ok (v, payload.length)⟩) ∧
    ∀ bytes bytes' offset payload stop stop',
      (slot .raw ⟨.counted header, pad, strip, limit⟩).read bytes offset =
        ⟨[], .ok (.bytes payload, stop)⟩ →
      (slot .raw ⟨.counted header, pad, strip, limit⟩).read bytes' offset =
        ⟨[], .ok (.bytes payload, stop')⟩ →
      ((framed s header limit).read bytes offset).events =
          ((framed s header limit).read bytes' offset).events ∧
        ((framed s header limit).read bytes offset).outcome.map Prod.fst =
          ((framed s header limit).read bytes' offset).outcome.map Prod.fst := by
  refine ⟨fun v => ?_, ?_, ?_, fun few bytes => ?_, ?_, ?_⟩
  · exact Slot.encodeSize_counted header limit inner pad pad' strip strip' (content.toBytes v)
  · exact write_counted_slot header limit inner pad pad' strip strip' content
  · exact read_counted_slot header limit inner pad pad' strip strip' content
  · obtain ⟨size, known, -⟩ := Header.size_of_few few
    exact decode_counted_slot limit inner pad pad' strip strip' content known bytes
  · exact fun bytes offset log v stop => read_framed_iff_slot pad strip
  · exact fun bytes bytes' offset payload stop stop' => read_framed_of_slot pad strip

theorem counted_slot_is_frame_word :
    16 * (Header.plain (.word false .two .big)).integers < addressSpace ∧
    ((slot (.text .base16)
        ⟨.counted (.plain (.word false .two .big)), 0, false, .all⟩).decode #[0, 2, 171, 205]) =
      (framed (slot (.text .base16) ⟨.remainder, 0, false, .all⟩)
        (.plain (.word false .two .big)) .all).decode #[0, 2, 171, 205] ∧
    ((framed (slot (.text .base16) ⟨.remainder, 0, false, .all⟩)
        (.plain (.word false .two .big)) .all).decode #[0, 2, 171, 205]).outcome =
      .ok (.text "abcd") ∧
    (framed (int (.word false .one .big)) (.plain (.word false .two .big)) .all).read
      #[9, 0, 1, 7, 5] 1 = ⟨[], .ok (.int 7, 4)⟩ ∧
    ((framed (int (.word false .one .big)) (.plain (.word false .two .big)) .all).read
        #[9, 0, 2, 7, 5] 1).outcome.map Prod.fst =
      ((framed (int (.word false .one .big)) (.plain (.word false .two .big)) .all).read
        #[8, 0, 2, 7, 5, 6] 1).outcome.map Prod.fst := by
  have few : 16 * (Header.plain (.word false .two .big)).integers < addressSpace := by decide
  obtain ⟨-, -, -, decoded, read, alone⟩ := counted_slot_is_frame (.plain (.word false .two .big))
    .all .all 0 0 false false (.text .base16) (int (.word false .one .big))
  refine ⟨few, decoded few _, rfl, (read _ _ _ _ _).mpr ⟨[7], rfl, rfl⟩, ?_⟩
  exact (alone _ _ 1 [7, 5] 5 5 rfl rfl).2

end Schema
end ByteSchema
