import ByteSchema.Proofs.Gathering
import ByteSchema.Proofs.ReadInversion
import ByteSchema.Proofs.SchemaImages
import ByteSchema.Proofs.Text.ContentBytes

/-!
# Bytes that were read are the bytes that are written

There is one byte string for each value that is read: redundant groups, stray padding, wrong lengths
and other tags are either refused or written the same way again.  Three things have to be asked of a
schema for that, since they are up to its author: labels that tell variants apart, conversions that
undo themselves on what is stored, and maps that keep the order of their pairs.
-/
namespace ByteSchema.Schema

open Bytes Reading

/-- What a schema has to keep of the bytes that it reads, apart from its parts. -/
def Faithful : Schema → Prop
  | map kind _ _ _ _ => kind = .insertion
  | union _ variants => (variants.map (·.label)).Nodup
  | converted conversion inner =>
    ∀ bytes offset r stop, (inner.read bytes offset).outcome = .ok (r, stop) →
      conversion.store (conversion.load r) = r
  | _ => True

/-- No pair that was read replaces an earlier one. -/
def NoOverwrite (e : Event) : Prop := ∀ i, e ≠ .keyOverwritten i

/-- What is read has the bytes that it was read from as its image. -/
def Recovers (s : Schema) : Prop :=
  ∀ {bytes : Bytes} {offset stop : Nat} {v : Value} {log : List Event},
    s.read bytes offset = ⟨log, .ok (v, stop)⟩ → (∀ e ∈ log, NoOverwrite e) →
      offset ≤ bytes.size → ∃ bs, s.image v = .ok bs ∧ Spans bytes offset bs stop

variable {s : Schema} {bytes : Bytes} {offset stop : Nat} {v : Value} {log : List Event}

private theorem image_of_readCount {header : Header} {n : Nat}
    (h : header.readCount bytes offset = ⟨log, .ok (n, stop)⟩) :
    ∃ bs, header.image n = .ok bs ∧ Spans bytes offset bs stop := by
  obtain ⟨-, -, -, bs, himage, spans, -⟩ := header.readCount_counts.mp h
  exact ⟨bs, himage, spans⟩

private theorem image_of_items {α : Type} {length : Length} {limit : Limit} {size : Outcome Size}
    {item : Nat → Reading (α × Nat)} {image : α → Outcome (List UInt8)} {items : List α}
    (h : Items.read length limit size item bytes offset = ⟨log, .ok (items, stop)⟩)
    (fresh : ∀ e ∈ log, NoOverwrite e) (inside : offset ≤ bytes.size)
    (each : ∀ {l x a b}, item a = ⟨l, .ok (x, b)⟩ → (∀ e ∈ l, NoOverwrite e) → a ≤ bytes.size →
      ∃ bs, image x = .ok bs ∧ Spans bytes a bs b) :
    ∃ bs, Items.image length image items = .ok bs ∧ Spans bytes offset bs stop := by
  obtain ⟨count, start, hcount, spans, walk⟩ := Items.walk_of_read inside h
  obtain ⟨rest, hrest, spans'⟩ := Items.imageAll_of_walk walk fresh spans.inside each
  exact ⟨count ++ rest, append_eq_ok_iff.mpr ⟨count, rest, hcount, hrest, rfl⟩, spans.append spans'⟩

private theorem image_of_readFields {fields : List (Field Schema)} {vs : List Value}
    (each : ∀ f ∈ fields, f.schema.Recovers)
    (h : readFields fields bytes offset = ⟨log, .ok (vs, stop)⟩)
    (fresh : ∀ e ∈ log, NoOverwrite e) (inside : offset ≤ bytes.size) :
    ∃ bs, imageFields fields vs = .ok bs ∧ Spans bytes offset bs stop := by
  induction fields generalizing offset vs log with
  | nil =>
    cases h
    exact ⟨[], rfl, .nil inside⟩
  | cons f fields ih =>
    obtain ⟨w, middle, rest, l, m, head, tail, rfl, rfl⟩ := readFields_cons_eq_ok_iff.mp h
    obtain ⟨first, hfirst, spans⟩ := each f List.mem_cons_self head
      (fun e he => fresh e (List.mem_append_left m he)) inside
    obtain ⟨last, hlast, spans'⟩ := ih (fun g hg => each g (List.mem_cons_of_mem f hg)) tail
      (fun e he => fresh e (List.mem_append_right l he)) spans.inside
    exact ⟨first ++ last, append_eq_ok_iff.mpr ⟨first, last, hfirst, hlast, rfl⟩,
      spans.append spans'⟩

private theorem image_of_readPair {key value : Schema} {e : Value × Value}
    (hkey : key.Recovers) (hvalue : value.Recovers)
    (h : readPair key value bytes offset = ⟨log, .ok (e, stop)⟩)
    (fresh : ∀ e ∈ log, NoOverwrite e) (inside : offset ≤ bytes.size) :
    ∃ bs, imagePair key value e = .ok bs ∧ Spans bytes offset bs stop := by
  obtain ⟨middle, l, m, first, second, rfl⟩ := readPair_eq_ok_iff.mp h
  obtain ⟨as, has, spans⟩ := hkey first (fun e he => fresh e (List.mem_append_left m he)) inside
  obtain ⟨bs, hbs, spans'⟩ :=
    hvalue second (fun e he => fresh e (List.mem_append_right l he)) spans.inside
  exact ⟨as ++ bs, imagePair_eq_ok_iff.mpr ⟨as, bs, has, hbs, rfl⟩, spans.append spans'⟩

theorem recovers (faithful : s.Everywhere Faithful) : s.Recovers := by
  intro bytes offset stop v log h fresh inside
  induction s generalizing bytes offset stop v log with
  | int format =>
    obtain ⟨-, x, rfl, bs, himage, spans, -⟩ := read_int_eq_ok_iff.mp h
    exact ⟨bs, himage, spans⟩
  | float precision order =>
    obtain ⟨-, x, rfl, -, bs, himage, spans, -⟩ := read_float_eq_ok_iff.mp h
    exact ⟨bs, himage, spans⟩
  | bool header =>
    obtain ⟨b, rfl, hcount⟩ := read_bool_eq_ok_iff.mp h
    exact image_of_readCount hcount
  | slot content shape =>
    obtain ⟨payload, hread, hvalue⟩ := read_slot_eq_ok_iff.mp h
    obtain ⟨-, bs, himage, spans⟩ := Slot.image_of_read hread
    have back := Content.toBytes_of_ofBytes hvalue
    exact ⟨bs, Outcome.bind_eq_ok.mpr ⟨payload, back, himage⟩, spans⟩
  | constant expected =>
    obtain ⟨-, rfl, spans, -⟩ := read_constant_eq_ok_iff.mp h
    exact ⟨expected, rfl, spans⟩
  | record fields each =>
    obtain ⟨vs, rfl, hread⟩ := read_record_eq_ok_iff.mp h
    have parts : ∀ f ∈ fields, f.schema.Recovers := by
      intro f hf bytes offset stop v log
      exact each f hf (faithful.field hf)
    exact image_of_readFields parts hread fresh inside
  | array item length limit hitem =>
    obtain ⟨vs, rfl, hread⟩ := read_array_eq_ok_iff.mp h
    exact image_of_items hread fresh inside (hitem (faithful.part List.mem_cons_self))
  | map kind key value length limit hkey hvalue =>
    obtain ⟨pairs, entries, l, m, rfl, hread, hgather, rfl⟩ := read_map_eq_ok_iff.mp h
    obtain ⟨faithfulKeys, faithfulValues⟩ := faithful.pair
    have keys : key.Recovers := by
      intro bytes offset stop v log
      exact hkey faithfulKeys
    have values : value.Recovers := by
      intro bytes offset stop v log
      exact hvalue faithfulValues
    have ordered : kind = .insertion := faithful.here
    subst ordered
    have kept := Association.gather_insertion hgather fun i hi =>
      fresh _ (List.mem_append_right l hi) i rfl
    subst kept
    exact image_of_items hread (fun e he => fresh e (List.mem_append_left m he)) inside
      (image_of_readPair keys values)
  | option header inner hinner =>
    rcases read_option_eq_ok_iff.mp h with ⟨rfl, hcount⟩ | ⟨w, middle, rfl, hcount, hread⟩
    · exact image_of_readCount hcount
    · obtain ⟨first, hfirst, spans⟩ := image_of_readCount hcount
      obtain ⟨second, hsecond, spans'⟩ :=
        hinner (faithful.part List.mem_cons_self) hread fresh spans.inside
      exact ⟨first ++ second, append_eq_ok_iff.mpr ⟨first, second, hfirst, hsecond, rfl⟩,
        spans.append spans'⟩
  | union header variants each =>
    obtain ⟨tag, middle, hcount, hcase⟩ := read_union_eq_ok_iff.mp h
    obtain ⟨w, hw, rfl, payload, rfl, hread⟩ := readCase_eq_ok hcase
    obtain ⟨first, hfirst, spans⟩ := image_of_readCount hcount
    obtain ⟨second, hsecond, spans'⟩ := each w hw (faithful.variant hw) hread fresh spans.inside
    have distinct : (variants.map (·.label)).Nodup := faithful.here
    exact ⟨first ++ second, imageCase_of_mem distinct hw hfirst hsecond, spans.append spans'⟩
  | framed inner header limit hinner =>
    obtain ⟨outer, payload, middle, -, -, houter, first, second, -, hread⟩ :=
      read_framed_eq_ok_iff.mp h
    obtain ⟨bs, himage, spans⟩ :=
      hinner (faithful.part List.mem_cons_self) hread fresh (Nat.zero_le _)
    -- The payload takes all of its slice, so its image is the slice.
    have same : bs = payload := spans.unique (spans_whole _ second.length_lt)
    subst same
    exact ⟨outer ++ bs, Frame.image_eq_ok_iff.mpr ⟨bs, outer, himage, houter, rfl⟩,
      first.append second⟩
  | converted conversion inner hinner =>
    obtain ⟨w, rfl, hread⟩ := read_converted_eq_ok_iff.mp h
    have undone : conversion.store (conversion.load w) = w :=
      faithful.here bytes offset w stop (outcome_eq_ok.mpr ⟨log, hread⟩)
    obtain ⟨bs, himage, spans⟩ := hinner (faithful.part List.mem_cons_self) hread fresh inside
    exact ⟨bs, by rw [image, undone, himage], spans⟩

/-- Encoding a value that was read gives the bytes that it was read from. -/
theorem encode_read (s : Schema) (sized : s.Everywhere Sized) (faithful : s.Everywhere Faithful)
    (bytes : Bytes) (offset : Nat) (inside : offset ≤ bytes.size) (v : Value) (stop : Nat)
    (h : (s.read bytes offset).outcome = .ok (v, stop))
    (fresh : ∀ i, .keyOverwritten i ∉ (s.read bytes offset).events) :
    s.encode v = .ok (bytes.extract offset stop) := by
  obtain ⟨log, hread⟩ := outcome_eq_ok.mp h
  rw [hread] at fresh
  have quiet : ∀ e ∈ log, NoOverwrite e := by
    rintro e he i rfl
    exact fresh i he
  obtain ⟨bs, himage, spans⟩ := recovers faithful hread quiet inside
  refine (encode_eq_ok_iff sized).mpr ⟨bs, himage, spans.length_lt, ?_⟩
  rw [← spans.content, Array.toArray_toList]

theorem raisedBy_undone (n : Int) (r : Value) :
    (Conversion.raisedBy n).store ((Conversion.raisedBy n).load r) = r := by
  cases r with
  | int v => simp [Conversion.raisedBy]
  | _ => rfl

theorem packet_faithful : packet.Everywhere Faithful := by
  simp [Everywhere, packet, struct, tuple, unit, nodes, fieldNodes, variantNodes, Faithful,
    raisedBy_undone]

set_option maxRecDepth 4000 in
theorem encode_read_packet :
    packet.Everywhere Sized ∧ packet.Everywhere Faithful ∧
      packet.encode packetValue =
        .ok #[1, 20, 7, 172, 2, 1, 0, 2, 10, 255, 0, 254, 255, 0, 0, 0, 5, 0, 0, 1, 128, 1] := by
  have reading : packet.read
      #[9, 1, 20, 7, 172, 2, 1, 0, 2, 10, 255, 0, 254, 255, 0, 0, 0, 5, 0, 0, 1, 128, 1, 8] 1 =
        ⟨[], .ok (packetValue, 23)⟩ := rfl
  refine ⟨packet_sized, packet_faithful, ?_⟩
  refine encode_read packet packet_sized packet_faithful _ 1 ?_ packetValue 23
    (congrArg Reading.outcome reading) ?_
  · decide
  · simp [reading]

end ByteSchema.Schema
