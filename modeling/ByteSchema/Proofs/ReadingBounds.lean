import ByteSchema.Proofs.ReadInversion

/-!
# Readings stay inside the input

A successful read is a chain of stretches of the input, so what holds between the ends of every
stretch and passes along chains holds between its offset and its stop.  It goes forward and ends
inside the input, provided that it starts there.  Frames read their payload from a slice, so their
stretches come from the slice and not from the payload.
-/
namespace ByteSchema.Schema

open Bytes Reading

variable {s : Schema} {bytes : Bytes} {offset stop : Nat} {v : Value} {log : List Event}

section Chains

variable {R : Nat → Nat → Prop} (refl : ∀ a, R a a) (trans : ∀ a b c, R a b → R b c → R a c)
  (stretch : ∀ {a b bs}, Spans bytes a bs b → R a b)

include stretch in
private theorem readCount_related {header : Header} {n : Nat}
    (h : header.readCount bytes offset = ⟨log, .ok (n, stop)⟩) : R offset stop := by
  obtain ⟨-, -, -, bs, -, spans, -⟩ := header.readCount_counts.mp h
  exact stretch spans

include refl trans stretch in
private theorem items_related {α : Type} {length : Length} {limit : Limit} {size : Outcome Size}
    {item : Nat → Reading (α × Nat)} {items : List α}
    (each : ∀ {l x a b}, item a = ⟨l, .ok (x, b)⟩ → R a b)
    (h : Items.read length limit size item bytes offset = ⟨log, .ok (items, stop)⟩) :
    R offset stop := by
  obtain ⟨count, start, -, first, walk⟩ := Items.walk_from_count h
  have rest := walk.related refl trans each
  rcases first with spans | ⟨-, rfl⟩
  · exact trans _ _ _ (stretch spans) rest
  · exact rest

include refl trans in
private theorem readFields_related {fields : List (Field Schema)} {vs : List Value}
    (each : ∀ f ∈ fields, ∀ {offset stop v log},
      f.schema.read bytes offset = ⟨log, .ok (v, stop)⟩ → R offset stop)
    (h : readFields fields bytes offset = ⟨log, .ok (vs, stop)⟩) : R offset stop := by
  induction fields generalizing offset vs log with
  | nil =>
    cases h
    exact refl _
  | cons f fields ih =>
    obtain ⟨w, middle, rest, l, m, head, tail, rfl, rfl⟩ := readFields_cons_eq_ok_iff.mp h
    have first := each f List.mem_cons_self head
    have second := ih (fun g hg => each g (List.mem_cons_of_mem f hg)) tail
    exact trans _ _ _ first second

include refl trans stretch in
/-- Every read is a chain of stretches. -/
theorem read_related (h : s.read bytes offset = ⟨log, .ok (v, stop)⟩) : R offset stop := by
  induction s generalizing offset stop v log with
  | int format =>
    obtain ⟨-, x, rfl, bs, -, spans, -⟩ := read_int_eq_ok_iff.mp h
    exact stretch spans
  | float precision order =>
    obtain ⟨-, x, rfl, -, bs, -, spans, -⟩ := read_float_eq_ok_iff.mp h
    exact stretch spans
  | bool header =>
    obtain ⟨b, rfl, hcount⟩ := read_bool_eq_ok_iff.mp h
    exact readCount_related stretch hcount
  | slot content shape =>
    obtain ⟨payload, hread, -⟩ := read_slot_eq_ok_iff.mp h
    obtain ⟨-, bs, -, spans⟩ := Slot.image_of_read hread
    exact stretch spans
  | constant expected =>
    obtain ⟨-, rfl, spans, -⟩ := read_constant_eq_ok_iff.mp h
    exact stretch spans
  | record fields each =>
    obtain ⟨vs, rfl, hread⟩ := read_record_eq_ok_iff.mp h
    exact readFields_related refl trans (fun f hf => each f hf) hread
  | array item length limit hitem =>
    obtain ⟨vs, rfl, hread⟩ := read_array_eq_ok_iff.mp h
    exact items_related refl trans stretch hitem hread
  | map kind key value length limit hkey hvalue =>
    obtain ⟨pairs, entries, l, m, rfl, hread, -, rfl⟩ := read_map_eq_ok_iff.mp h
    refine items_related refl trans stretch (fun {l e a b} hpair => ?_) hread
    obtain ⟨middle, l, m, first, second, rfl⟩ := readPair_eq_ok_iff.mp hpair
    exact trans _ _ _ (hkey first) (hvalue second)
  | option header inner hinner =>
    rcases read_option_eq_ok_iff.mp h with ⟨rfl, hcount⟩ | ⟨w, middle, rfl, hcount, hread⟩
    · exact readCount_related stretch hcount
    · exact trans _ _ _ (readCount_related stretch hcount) (hinner hread)
  | union header variants each =>
    obtain ⟨tag, middle, hcount, hcase⟩ := read_union_eq_ok_iff.mp h
    obtain ⟨w, hw, -, payload, rfl, hread⟩ := readCase_eq_ok hcase
    exact trans _ _ _ (readCount_related stretch hcount) (each w hw hread)
  | framed inner header limit hinner =>
    obtain ⟨outer, payload, middle, -, -, -, first, second, -, -⟩ := read_framed_eq_ok_iff.mp h
    exact stretch (first.append second)
  | converted conversion inner hinner =>
    obtain ⟨w, rfl, hread⟩ := read_converted_eq_ok_iff.mp h
    exact hinner hread

end Chains

/-- From one offset of the input forward to another. -/
def Advances (bytes : Bytes) (offset stop : Nat) : Prop :=
  offset ≤ bytes.size → offset ≤ stop ∧ stop ≤ bytes.size

theorem read_advances (h : s.read bytes offset = ⟨log, .ok (v, stop)⟩) :
    Advances bytes offset stop := by
  refine read_related (R := Advances bytes) ?_ ?_ ?_ h
  · exact fun a inside => ⟨Nat.le_refl a, inside⟩
  · intro a b c first second inside
    obtain ⟨le, inside'⟩ := first inside
    obtain ⟨le', inside''⟩ := second inside'
    exact ⟨Nat.le_trans le le', inside''⟩
  · exact fun spans _ => ⟨spans.le, spans.inside⟩

/-- Whatever was read from, a stop that is another offset lies inside the input and has an
address. -/
theorem read_stays (h : s.read bytes offset = ⟨log, .ok (v, stop)⟩) :
    stop = offset ∨ (offset < stop ∧ stop ≤ bytes.size ∧ stop < addressSpace) := by
  refine read_related (R := fun a b => b = a ∨ (a < b ∧ b ≤ bytes.size ∧ b < addressSpace))
    (fun a => .inl rfl) ?_ ?_ h
  · omega
  · intro a b bs spans
    have := spans.le
    have := spans.inside
    have := spans.room
    omega

theorem read_le (h : s.read bytes offset = ⟨log, .ok (v, stop)⟩) : offset ≤ stop := by
  have := read_stays h
  omega

theorem readPair_le {key value : Schema} {e : Value × Value}
    (h : readPair key value bytes offset = ⟨log, .ok (e, stop)⟩) : offset ≤ stop := by
  obtain ⟨middle, _, _, first, second, -⟩ := readPair_eq_ok_iff.mp h
  exact Nat.le_trans (read_le first) (read_le second)

theorem readFields_le {fields : List (Field Schema)} {vs : List Value}
    (h : readFields fields bytes offset = ⟨log, .ok (vs, stop)⟩) : offset ≤ stop :=
  read_le (read_record_eq_ok_iff.mpr ⟨vs, rfl, h⟩)

theorem readCase_le {tag : Nat} {variants : List (Variant Schema)}
    (h : readCase tag variants bytes offset = ⟨log, .ok (v, stop)⟩) : offset ≤ stop := by
  obtain ⟨w, -, -, payload, -, hread⟩ := readCase_eq_ok h
  exact read_le hread

end ByteSchema.Schema
