import ByteSchema.Proofs.ReadingBounds
import ByteSchema.Proofs.SchemaImages

/-!
# Schemas of fixed size

A fixed size is a promise about three walks: sizing, writing and reading.  It is kept by each of
them on its own, whatever the value and whatever the input, since the shortcuts of the walks rely on
it.  With the promise kept, looking at the size of the input first changes no answer of the decoder.
-/
namespace ByteSchema.Schema

open Bytes Reading

variable {s : Schema} {v : Value} {n m : Nat}

private theorem encodeSizeAfter_of_fixed {total : Nat} {fields : List (Field Schema)}
    {vs : List Value}
    (each : ∀ f ∈ fields, ∀ {v n m}, f.schema.size = .ok (.fixed n) →
      f.schema.encodeSize v = .ok m → m = n)
    (size : sizeAfter (.fixed total) fields = .ok (.fixed n))
    (h : encodeSizeAfter total fields vs = .ok m) : m = n := by
  induction fields generalizing total vs with
  | nil =>
    cases vs with
    | nil =>
      cases size
      cases h
      rfl
    | cons v vs => cases h
  | cons f fields ih =>
    cases vs with
    | nil => cases h
    | cons v vs =>
      obtain ⟨k, hk, size⟩ := sizeAfter_cons_eq_fixed size
      obtain ⟨part, hpart, h⟩ := Outcome.bind_eq_ok.mp h
      obtain ⟨sum, hsum, h⟩ := Outcome.bind_eq_ok.mp h
      obtain ⟨-, rfl⟩ := checkedAdd_eq_ok_iff.mp hsum
      cases each f List.mem_cons_self hk hpart
      exact ih (fun g hg => each g (List.mem_cons_of_mem f hg)) size h

private theorem encodeSizeCase_of_fixed {header : Header} {label : String} {payload : Value}
    {variants : List (Variant Schema)} {tag k : Nat} (htag : header.size = .ok (.fixed tag))
    (each : ∀ v ∈ variants, ∀ {m}, v.schema.encodeSize payload = .ok m → m = k)
    (h : encodeSizeCase header label payload variants = .ok m) : m = tag + k := by
  induction variants with
  | nil => cases h
  | cons v variants ih =>
    rw [encodeSizeCase] at h
    by_cases same : v.label = label
    · rw [if_pos same] at h
      obtain ⟨x, hx, h⟩ := Outcome.bind_eq_ok.mp h
      obtain ⟨y, hy, h⟩ := Outcome.bind_eq_ok.mp h
      obtain ⟨-, rfl⟩ := checkedAdd_eq_ok_iff.mp h
      rw [Header.encodeSize_of_fixed htag hx, each v List.mem_cons_self hy]
    · rw [if_neg same] at h
      exact ih (fun w hw => each w (List.mem_cons_of_mem v hw)) h

private theorem encodeSize_of_fixed (size : s.size = .ok (.fixed n))
    (h : s.encodeSize v = .ok m) : m = n := by
  induction s generalizing n v m with
  | int format =>
    obtain ⟨x, _, h⟩ := Outcome.bind_eq_ok.mp h
    exact IntFormat.encodeSize_of_fixed (Except.ok.inj size) h
  | float precision order =>
    obtain ⟨x, _, h⟩ := Outcome.bind_eq_ok.mp h
    cases size
    cases h
    rfl
  | bool header =>
    obtain ⟨b, _, h⟩ := Outcome.bind_eq_ok.mp h
    exact Header.encodeSize_of_fixed size h
  | slot content shape => exact Slot.encodeSize_of_fixed (Except.ok.inj size) h
  | constant bytes =>
    obtain ⟨_, _, h⟩ := Outcome.bind_eq_ok.mp h
    cases size
    cases h
    rfl
  | record fields each =>
    obtain ⟨vs, _, h⟩ := Outcome.bind_eq_ok.mp h
    exact encodeSizeAfter_of_fixed (fun f hf _ _ _ => each f hf) size h
  | array item length limit hitem =>
    obtain ⟨vs, _, h⟩ := Outcome.bind_eq_ok.mp h
    obtain ⟨size, hsize, hfixed⟩ := array_size_eq_fixed size
    exact Items.encodeSize_of_fixed hsize hfixed h
  | map kind key value length limit hkey hvalue =>
    obtain ⟨entries, _, h⟩ := Outcome.bind_eq_ok.mp h
    obtain ⟨size, hsize, hfixed⟩ := map_size_eq_fixed size
    exact Items.encodeSize_of_fixed hsize hfixed h
  | option header inner => cases size
  | union header variants each =>
    obtain ⟨c, _, h⟩ := Outcome.bind_eq_ok.mp h
    obtain ⟨tag, k, htag, hvariants, rfl⟩ := union_size_eq_fixed size
    exact encodeSizeCase_of_fixed htag (fun w hw _ => each w hw (hvariants w hw)) h
  | framed inner header limit hinner =>
    obtain ⟨x, y, hx, hy, rfl⟩ := framed_size_eq_fixed size
    obtain ⟨len, hlen, h⟩ := Outcome.bind_eq_ok.mp h
    obtain ⟨outer, houter, h⟩ := Outcome.bind_eq_ok.mp h
    obtain ⟨-, rfl⟩ := checkedAdd_eq_ok_iff.mp h
    rw [Header.encodeSize_of_fixed hx houter, hinner hy hlen]
  | converted conversion inner hinner =>
    have fixed : inner.size = .ok (.fixed n) := size
    obtain ⟨size, hsize, h⟩ := Outcome.bind_eq_ok.mp h
    cases hsize.symm.trans fixed
    cases h
    rfl

private theorem write_of_fixed (size : s.size = .ok (.fixed n)) {offset stop : Nat}
    {buffer after : Bytes} (h : (s.write v offset).run buffer = .ok stop after) :
    stop = offset + n := by
  obtain ⟨bs, himage, rfl, _⟩ := (write_renders (everywhere_sized_of_fixed size) v).sound h
  rw [length_image_of_fixed size himage]

variable {bytes : Bytes} {offset stop : Nat} {log : List Event}

private theorem readCount_of_fixed {header : Header} {tag : Nat}
    (size : header.size = .ok (.fixed n))
    (h : header.readCount bytes offset = ⟨log, .ok (tag, stop)⟩) : stop = offset + n := by
  obtain ⟨-, -, -, bs, himage, spans, -⟩ := header.readCount_counts.mp h
  rw [spans.stop_eq, Header.length_image_of_fixed size himage]

private theorem readFields_of_fixed {total : Nat} {fields : List (Field Schema)} {vs : List Value}
    (each : ∀ f ∈ fields, ∀ {v n offset stop log}, f.schema.size = .ok (.fixed n) →
      f.schema.read bytes offset = ⟨log, .ok (v, stop)⟩ → stop = offset + n)
    (size : sizeAfter (.fixed total) fields = .ok (.fixed n))
    (h : readFields fields bytes offset = ⟨log, .ok (vs, stop)⟩) : stop + total = offset + n := by
  induction fields generalizing total offset vs log with
  | nil =>
    cases size
    cases h
    rfl
  | cons f fields ih =>
    obtain ⟨k, hk, size⟩ := sizeAfter_cons_eq_fixed size
    obtain ⟨w, middle, rest, l, m, head, tail, rfl, rfl⟩ := readFields_cons_eq_ok_iff.mp h
    have first := each f List.mem_cons_self hk head
    have second := ih (fun g hg => each g (List.mem_cons_of_mem f hg)) size tail
    omega

theorem read_of_fixed (size : s.size = .ok (.fixed n))
    (h : s.read bytes offset = ⟨log, .ok (v, stop)⟩) : stop = offset + n := by
  induction s generalizing n v bytes offset stop log with
  | int format =>
    obtain ⟨-, x, rfl, bs, himage, spans, -⟩ := read_int_eq_ok_iff.mp h
    have length := IntFormat.encodeSize_of_fixed (Except.ok.inj size)
      (IntFormat.encodeSize_of_image himage)
    rw [spans.stop_eq, length]
  | float precision order =>
    obtain ⟨-, x, rfl, -, bs, himage, spans, -⟩ := read_float_eq_ok_iff.mp h
    cases size
    rw [spans.stop_eq, Floating.length_image himage]
  | bool header =>
    obtain ⟨b, rfl, hcount⟩ := read_bool_eq_ok_iff.mp h
    exact readCount_of_fixed size hcount
  | slot content shape =>
    obtain ⟨payload, hread, -⟩ := read_slot_eq_ok_iff.mp h
    obtain ⟨-, bs, himage, spans⟩ := Slot.image_of_read hread
    rw [spans.stop_eq, Slot.length_image_of_fixed (Except.ok.inj size) himage]
  | constant expected =>
    obtain ⟨-, rfl, spans, -⟩ := read_constant_eq_ok_iff.mp h
    cases size
    exact spans.stop_eq
  | record fields each =>
    obtain ⟨vs, rfl, hread⟩ := read_record_eq_ok_iff.mp h
    exact readFields_of_fixed (fun f hf _ _ _ _ _ => each f hf) size hread
  | array item length limit hitem =>
    obtain ⟨vs, rfl, hread⟩ := read_array_eq_ok_iff.mp h
    obtain ⟨size, hsize, hfixed⟩ := array_size_eq_fixed size
    exact Items.stop_of_fixed hfixed (fun k hk _ _ _ _ => hitem (hk ▸ hsize)) hread
  | map kind key value length limit hkey hvalue =>
    obtain ⟨pairs, entries, l, m, rfl, hread, -, rfl⟩ := read_map_eq_ok_iff.mp h
    obtain ⟨size, hsize, hfixed⟩ := map_size_eq_fixed size
    refine Items.stop_of_fixed hfixed ?_ hread
    intro k hk l e a b hpair
    obtain ⟨x, y, hx, hy, -, rfl⟩ := Items.pairSize_eq_fixed_iff.mp (hk ▸ hsize)
    obtain ⟨middle, l, m, first, second, rfl⟩ := readPair_eq_ok_iff.mp hpair
    rw [hvalue hy second, hkey hx first, Nat.add_assoc]
  | option header inner => cases size
  | union header variants each =>
    obtain ⟨tag, middle, hcount, hcase⟩ := read_union_eq_ok_iff.mp h
    obtain ⟨x, k, hx, hvariants, rfl⟩ := union_size_eq_fixed size
    obtain ⟨w, hw, -, payload, rfl, hread⟩ := readCase_eq_ok hcase
    rw [each w hw (hvariants w hw) hread, readCount_of_fixed hx hcount, Nat.add_assoc]
  | framed inner header limit hinner =>
    obtain ⟨x, y, hx, hy, rfl⟩ := framed_size_eq_fixed size
    obtain ⟨outer, payload, middle, -, -, houter, first, second, -, hread⟩ :=
      read_framed_eq_ok_iff.mp h
    have length := hinner hy hread
    rw [second.stop_eq, first.stop_eq, Header.length_image_of_fixed hx houter]
    omega
  | converted conversion inner hinner =>
    obtain ⟨w, rfl, hread⟩ := read_converted_eq_ok_iff.mp h
    exact hinner size hread

theorem checkSize_fixed_eq_ok_iff : checkSize (.fixed n) bytes = .ok () ↔ bytes.size = n := by
  rw [checkSize]
  constructor
  · intro h
    by_cases fewer : bytes.size < n
    · simp [fewer] at h
    · by_cases more : n < bytes.size
      · simp [fewer, more] at h
      · omega
  · intro h
    rw [if_neg (by omega), if_neg (by omega)]

/-- What is read from all of the input is decoded from it. -/
theorem decode_of_read {size : Size} (sized : s.size = .ok size)
    (h : s.read bytes 0 = ⟨log, .ok (v, bytes.size)⟩) : s.decode bytes = ⟨log, .ok v⟩ := by
  have checked : checkSize size bytes = .ok () := by
    cases size with
    | varying => rfl
    | fixed n =>
      have exact := read_of_fixed sized h
      exact checkSize_fixed_eq_ok_iff.mpr (by omega)
  simp only [decode, bind_eq_ok, lift_eq_ok]
  refine ⟨[], size, log, ⟨sized, rfl⟩,
    ⟨[], (), log, ⟨checked, rfl⟩, ⟨log, _, [], h, ?_, ?_⟩, rfl⟩, rfl⟩
  · rw [if_neg (Nat.lt_irrefl _)]
    rfl
  · rw [List.append_nil]

/-- An input of the right size fails to decode as it fails to be read. -/
theorem decode_of_refused {size : Size} {failure : Failure} (sized : s.size = .ok size)
    (checked : checkSize size bytes = .ok ()) (h : s.read bytes 0 = ⟨log, .error failure⟩) :
    (s.decode bytes).outcome = .error failure := by
  rw [decode, sized]
  change ((liftM (checkSize size bytes) : Reading Unit) >>= fun _ =>
    s.read bytes 0 >>= _).outcome = _
  rw [checked, h]
  rfl

/-- What was decoded was read from all of an input of the right size. -/
theorem read_of_decode (h : s.decode bytes = ⟨log, .ok v⟩) :
    ∃ size, s.size = .ok size ∧ checkSize size bytes = .ok () ∧
      s.read bytes 0 = ⟨log, .ok (v, bytes.size)⟩ := by
  simp only [decode, bind_eq_ok, lift_eq_ok] at h
  obtain ⟨_, size, _, ⟨sized, rfl⟩, ⟨_, _, _, ⟨checked, rfl⟩, ⟨l, ⟨w, stop⟩, m, hread, hend, rfl⟩,
    rfl⟩, rfl⟩ := h
  obtain ⟨-, inside⟩ := read_advances hread (Nat.zero_le _)
  refine ⟨size, sized, checked, ?_⟩
  by_cases more : stop < bytes.size
  · simp [if_pos more] at hend
  · simp only [if_neg more, pure_eq_ok] at hend
    obtain ⟨rfl, rfl⟩ := hend
    have whole : stop = bytes.size := by omega
    subst whole
    simpa using hread

private theorem decode_eq_ok_iff {size : Size} (sized : s.size = .ok size) :
    (s.decode bytes).outcome = .ok v ↔ (s.read bytes 0).outcome = .ok (v, bytes.size) := by
  constructor
  · intro h
    obtain ⟨log, hdecode⟩ := outcome_eq_ok.mp h
    obtain ⟨_, _, _, hread⟩ := read_of_decode hdecode
    rw [hread]
  · intro h
    obtain ⟨l, hread⟩ := outcome_eq_ok.mp h
    rw [decode_of_read sized hread]

/-- A schema of fixed size takes that size, whichever way it is asked; and whatever its size,
decoding answers what reading all of the input does. -/
theorem fixed_size_contract (s : Schema) :
    (∀ n, s.size = .ok (.fixed n) →
      (∀ v m, s.encodeSize v = .ok m → m = n) ∧
      (∀ v offset buffer stop after, (s.write v offset).run buffer = .ok stop after →
        stop = offset + n) ∧
      ∀ bytes offset v stop, (s.read bytes offset).outcome = .ok (v, stop) → stop = offset + n) ∧
    ∀ size, s.size = .ok size → ∀ bytes v,
      (s.decode bytes).outcome = .ok v ↔ (s.read bytes 0).outcome = .ok (v, bytes.size) := by
  refine ⟨fun n size => ⟨?_, ?_, ?_⟩, ?_⟩
  · intro v m h
    exact encodeSize_of_fixed size h
  · intro v offset buffer stop after h
    exact write_of_fixed size h
  · intro bytes offset v stop h
    obtain ⟨log, hread⟩ := outcome_eq_ok.mp h
    exact read_of_fixed size hread
  · intro size sized bytes v
    exact decode_eq_ok_iff sized

/-- Six bytes: the length of the rest, a word, and a tag with two bytes for either of its cases. -/
def fixedPacket : Schema :=
  framed
    (tuple
      [int (.word true .two .big),
        union (.plain (.word false .one .big))
          [⟨0, "bytes", slot .raw ⟨.fixed 2, 0, false, .all⟩⟩,
            ⟨1, "flags", array (bool (.plain (.word false .one .big))) (.fixed 2) .all⟩]])
    (.plain (.word false .one .big)) .all

def fixedPacketValue : Value :=
  .list [.int (-2), .case "flags" (.list [.bool true, .bool false])]

theorem fixed_size_contract_packet :
    fixedPacket.size = .ok (.fixed 6) ∧
    (∃ m, fixedPacket.encodeSize fixedPacketValue = .ok m ∧ m = 6) ∧
    (∃ stop after, (fixedPacket.write fixedPacketValue 3).run #[] = .ok stop after ∧
      stop = 3 + 6) ∧
    (∃ v stop, (fixedPacket.read #[0, 5, 255, 254, 1, 1, 0, 9] 1).outcome = .ok (v, stop) ∧
      stop = 1 + 6) ∧
    (fixedPacket.decode #[5, 255, 254, 1, 1, 0]).outcome = .ok fixedPacketValue := by
  obtain ⟨fixed, decoding⟩ := fixed_size_contract fixedPacket
  obtain ⟨sizing, writing, reading⟩ := fixed 6 rfl
  refine ⟨rfl, ⟨_, rfl, ?_⟩, ⟨9, _, rfl, ?_⟩, ⟨fixedPacketValue, 7, rfl, ?_⟩, ?_⟩
  · exact sizing fixedPacketValue _ rfl
  · exact writing fixedPacketValue 3 #[] 9 _ rfl
  · exact reading #[0, 5, 255, 254, 1, 1, 0, 9] 1 fixedPacketValue 7 rfl
  · exact (decoding _ rfl _ _).mpr rfl

end ByteSchema.Schema
