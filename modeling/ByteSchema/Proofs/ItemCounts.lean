import ByteSchema.Proofs.FixedSizes
import ByteSchema.Proofs.Gathering

/-!
# How many items the input pays for

A header may announce any number of items, so the number is bounded by the input only where each
item takes a byte of it.  The check of a schema looks at fixed sizes alone: items of varying size
that take nothing get past it.  Which schemas can take nothing is told here, and with that which
arrays and maps keep the bound.
-/
namespace ByteSchema

open Bytes Reading

/-- A number takes a byte at least, and so does everything that starts with one. -/
theorem IntFormat.image_ne_nil {format : IntFormat} {v : Int} {bs : List UInt8}
    (h : format.image v = .ok bs) : bs ≠ [] := by
  apply List.ne_nil_of_length_pos
  obtain ⟨_, _, h⟩ := Outcome.bind_eq_ok.mp h
  cases format with
  | word signed width order =>
    cases h
    rw [length_wordBytes]
    cases width <;> decide
  | compact =>
    cases h
    rw [Compact.length_groups]
    exact Compact.size_pos _

theorem Header.image_ne_nil {header : Header} {n : Nat} {bs : List UInt8}
    (h : header.image n = .ok bs) : bs ≠ [] := by
  induction header generalizing n bs with
  | plain format => exact IntFormat.image_ne_nil h
  | framed inner header limit hinner hheader =>
    obtain ⟨payload, outer, -, houter, rfl⟩ := Frame.image_eq_ok_iff.mp h
    exact List.append_ne_nil_of_left_ne_nil (hheader houter) payload

theorem Bytes.Spans.lt {bytes : Bytes} {offset stop : Nat} {bs : List UInt8}
    (h : Spans bytes offset bs stop) (some : bs ≠ []) : offset < stop := by
  have := h.stop_eq
  have := List.length_pos_iff.mpr some
  omega

theorem Header.readCount_lt {header : Header} {bytes : Bytes} {offset n stop : Nat}
    {log : List Event} (h : header.readCount bytes offset = ⟨log, .ok (n, stop)⟩) :
    offset < stop := by
  obtain ⟨-, -, -, bs, himage, spans, -⟩ := header.readCount_counts.mp h
  exact spans.lt (image_ne_nil himage)

namespace Length

/-- Whether a run of items, that may take nothing if `item` says so, may take nothing. -/
def nullable (item : Bool) : Length → Bool
  | fixed n => n == 0 || item
  | counted _ => false
  | remainder => true

/-- Each count that is let pass has as many bytes as it announces items. -/
def Covers (limit : Limit) : Length → Prop
  | counted header => ∀ n bs, n < addressSpace → limit.contains n = true → header.Admits n →
      header.image n = .ok bs → n ≤ bs.length
  | _ => True

end Length

namespace Slot

variable {slot : Slot} {bytes : Bytes}

theorem read_lt {offset stop : Nat} {payload : List UInt8} {log : List Event}
    (required : slot.length.nullable false = false)
    (h : slot.read bytes offset = ⟨log, .ok (payload, stop)⟩) : offset < stop := by
  obtain ⟨-, bs, himage, spans⟩ := image_of_read h
  refine spans.lt ?_
  cases hlength : slot.length with
  | fixed n =>
    have size := length_image_of_fixed (size_eq_fixed_iff.mpr hlength) himage
    have some : n ≠ 0 := by simpa [hlength, Length.nullable] using required
    exact List.ne_nil_of_length_pos (by omega)
  | counted header =>
    rw [image, hlength] at himage
    obtain ⟨outer, rest, houter, -, rfl⟩ := append_eq_ok_iff.mp himage
    exact List.append_ne_nil_of_left_ne_nil (Header.image_ne_nil houter) rest
  | remainder =>
    rw [hlength] at required
    cases required

theorem read_at_end (empty : slot.length.nullable false = true)
    (small : bytes.size < addressSpace) :
    slot.read bytes bytes.size = ⟨[], .ok ([], bytes.size)⟩ := by
  have nothing : Spans bytes bytes.size [] bytes.size := .nil (Nat.le_refl _)
  cases hlength : slot.length with
  | fixed n =>
    have none : n = 0 := by simpa [hlength, Length.nullable] using empty
    subst none
    refine read_of_image ?_ ?_ nothing small fun _ => rfl
    · simp [image, hlength]
    · simp [Admits, hlength]
  | counted header =>
    rw [hlength] at empty
    cases empty
  | remainder =>
    refine read_of_image ?_ ?_ nothing small fun _ => rfl
    · simp [image, hlength]
    · simp [Admits, hlength]

end Slot

theorem Content.exists_ofBytes_nil (content : Content) : ∃ v, content.ofBytes [] = .ok v := by
  cases content with
  | raw => exact ⟨_, rfl⟩
  | text e =>
    cases e with
    | utf8 =>
      have back : Utf8.toText (Utf8.toBytes "") = .ok "" := Utf8.toText_toBytes ""
      exact ⟨.text "", congrArg (fun x => (Encoding.utf8.refuse x).map Value.text) back⟩
    | base16 | base58 | base64 => exact ⟨_, rfl⟩

namespace Items

variable {α : Type} {length : Length} {limit : Limit} {size : Outcome Size} {itemNullable : Bool}
  {item : Nat → Reading (α × Nat)} {items : List α} {bytes : Bytes} {offset stop : Nat}
  {log : List Event}

private theorem start_le_stop {start : Nat} {step : Nat → Nat → Prop}
    (stays : ∀ {l x a b}, item a = ⟨l, .ok (x, b)⟩ → a ≤ b)
    (walk : Walk item step start items stop log) : start ≤ stop :=
  walk.related Nat.le_refl (fun _ _ _ => Nat.le_trans) stays

private theorem items_le_room {start : Nat} {step : Nat → Nat → Prop}
    (each : ∀ {l x a b}, item a = ⟨l, .ok (x, b)⟩ → a < b)
    (walk : Walk item step start items stop log) : start + items.length ≤ stop :=
  (walk.refine fun head _ => each head).length_le fun _ _ h => h

theorem read_lt (required : length.nullable itemNullable = false)
    (stays : ∀ {l x a b}, item a = ⟨l, .ok (x, b)⟩ → a ≤ b)
    (each : itemNullable = false → ∀ {l x a b}, item a = ⟨l, .ok (x, b)⟩ → a < b)
    (h : Items.read length limit size item bytes offset = ⟨log, .ok (items, stop)⟩) :
    offset < stop := by
  cases length with
  | fixed n =>
    obtain ⟨some, forward⟩ := Bool.or_eq_false_iff.mp required
    obtain ⟨-, rfl, walk⟩ := read_fixed_eq_ok_iff.mp h
    have := items_le_room (each forward) walk
    have := beq_eq_false_iff_ne.mp some
    omega
  | counted header =>
    obtain ⟨-, start, hheader, -, walk⟩ := read_counted_eq_ok_iff.mp h
    exact Nat.lt_of_lt_of_le (Header.readCount_lt hheader) (start_le_stop stays walk)
  | remainder => cases required

/-- The items behind a count are as many as the input has bytes for, if each takes one or the count
has enough of its own. -/
theorem length_le_of_read (uncounted : ∀ n, length ≠ .fixed n)
    (bounded : itemNullable = false ∨ length.Covers limit) (inside : offset ≤ bytes.size)
    (stays : ∀ {l x a b}, item a = ⟨l, .ok (x, b)⟩ → a ≤ b)
    (each : itemNullable = false → ∀ {l x a b}, item a = ⟨l, .ok (x, b)⟩ → a < b)
    (h : Items.read length limit size item bytes offset = ⟨log, .ok (items, stop)⟩) :
    offset + items.length ≤ stop := by
  cases length with
  | fixed n => exact absurd rfl (uncounted n)
  | counted header =>
    obtain ⟨-, start, hheader, within, walk⟩ := read_counted_eq_ok_iff.mp h
    obtain ⟨-, fits, admits, bs, himage, spans, -⟩ := header.readCount_counts.mp hheader
    have le := start_le_stop stays walk
    rcases bounded with forward | covers
    · have := items_le_room (each forward) walk
      have := spans.le
      omega
    · have := covers _ bs fits within admits himage
      have := spans.stop_eq
      omega
  | remainder =>
    -- The loop itself refuses an item that takes nothing.
    obtain ⟨few, ended, -⟩ := toEnd_eq_ok_iff.mp (toEnd_of_read_remainder h)
    omega

/-- As many empty items as wanted, wherever there is one. -/
private theorem walk_of_empty {l : List Event} {x : α} (h : item offset = ⟨l, .ok (x, offset)⟩)
    (n : Nat) : ∃ log, Walk item (fun _ _ => True) offset (List.replicate n x) offset log := by
  induction n with
  | zero => exact ⟨[], .nil offset⟩
  | succ n ih =>
    obtain ⟨log, walk⟩ := ih
    exact ⟨l ++ log, .cons h trivial walk⟩

/-- Items that may take nothing are read from the end of the input. -/
theorem read_at_end (empty : length.nullable itemNullable = true) (known : ∃ s, size = .ok s)
    (small : bytes.size < addressSpace)
    (each : itemNullable = true → ∃ l x, item bytes.size = ⟨l, .ok (x, bytes.size)⟩) :
    ∃ items log, Items.read length limit size item bytes bytes.size =
      ⟨log, .ok (items, bytes.size)⟩ := by
  cases length with
  | fixed n =>
    rcases Bool.or_eq_true_iff.mp empty with none | possible
    · cases beq_iff_eq.mp none
      exact ⟨[], [], read_fixed_eq_ok_iff.mpr ⟨known, rfl, .nil _⟩⟩
    · obtain ⟨l, x, hitem⟩ := each possible
      obtain ⟨log, walk⟩ := walk_of_empty hitem n
      exact ⟨_, log, read_fixed_eq_ok_iff.mpr ⟨known, List.length_replicate, walk⟩⟩
  | counted header => cases empty
  | remainder =>
    obtain ⟨s, rfl⟩ := known
    have nothing : bytes.rest bytes.size = .ok #[] := by
      refine window_eq_ok_iff.mpr ⟨by omega, by omega, ?_⟩
      rw [Nat.sub_self, Nat.add_zero, Array.extract_empty_of_size_le_start (Nat.le_refl _)]
    have loop : toEnd item bytes.size bytes.size = ⟨[], .ok ([], bytes.size)⟩ :=
      toEnd_eq_ok_iff.mpr ⟨by simp, Nat.le_refl _, .nil _⟩
    refine ⟨[], [], ?_⟩
    rw [read_remainder, nothing]
    refine bind_eq_ok.mpr ⟨[], #[], [], rfl, bind_eq_ok.mpr ⟨[], s, [], rfl, ?_, rfl⟩, rfl⟩
    cases s with
    | varying => exact loop
    | fixed k => simpa using loop

/-- A count that does not cover itself is followed by that many empty items and no byte more. -/
theorem exists_read_of_not_covers (known : ∃ s, size = .ok s)
    (item : Bytes → Nat → Reading (α × Nat)) (loose : ¬ length.Covers limit)
    (each : ∀ bytes : Bytes, bytes.size < addressSpace →
      ∃ l x, item bytes bytes.size = ⟨l, .ok (x, bytes.size)⟩) :
    ∃ (bytes : Bytes) (items : List α) (log : List Event), bytes.size < addressSpace ∧
      bytes.size < items.length ∧
      Items.read length limit size (item bytes) bytes 0 = ⟨log, .ok (items, bytes.size)⟩ := by
  cases length with
  | fixed | remainder => exact absurd trivial loose
  | counted header =>
    simp only [Length.Covers, not_forall, Nat.not_le] at loose
    obtain ⟨n, bs, fits, within, admits, himage, few⟩ := loose
    have small : bs.length < addressSpace := Nat.lt_trans few fits
    obtain ⟨l, x, hitem⟩ := each bs.toArray small
    obtain ⟨log, walk⟩ := walk_of_empty hitem n
    have hheader := header.readCount_counts.mpr
      ⟨rfl, fits, admits, bs, himage, spans_whole bs.toArray small, small⟩
    have total : (List.replicate n x).length = n := List.length_replicate
    refine ⟨bs.toArray, List.replicate n x, log, small, by rwa [total], ?_⟩
    exact read_counted_eq_ok_iff.mpr ⟨known, _, by rwa [total], by rwa [total], walk⟩

end Items

namespace Schema

mutual

/-- Whether a value of the schema may take no byte. -/
def nullable : Schema → Bool
  | int _ | float _ _ | bool _ | option _ _ | union _ _ | framed _ _ _ => false
  | slot _ shape => shape.length.nullable false
  | constant bytes => bytes.isEmpty
  | record fields => nullableAll fields
  | array item length _ => length.nullable item.nullable
  | map _ key value length _ => length.nullable (key.nullable && value.nullable)
  | converted _ inner => inner.nullable

def nullableAll : List (Field Schema) → Bool
  | [] => true
  | f :: fields => f.schema.nullable && nullableAll fields

end

variable {s : Schema} {bytes : Bytes} {offset stop : Nat} {v : Value} {log : List Event}

private theorem readPair_lt {key value : Schema} {e : Value × Value}
    (required : (key.nullable && value.nullable) = false)
    (hkey : key.nullable = false → ∀ {offset stop v log},
      key.read bytes offset = ⟨log, .ok (v, stop)⟩ → offset < stop)
    (hvalue : value.nullable = false → ∀ {offset stop v log},
      value.read bytes offset = ⟨log, .ok (v, stop)⟩ → offset < stop)
    (h : readPair key value bytes offset = ⟨log, .ok (e, stop)⟩) : offset < stop := by
  obtain ⟨middle, _, _, first, second, -⟩ := readPair_eq_ok_iff.mp h
  rcases Bool.and_eq_false_iff.mp required with some | some
  · exact Nat.lt_of_lt_of_le (hkey some first) (read_le second)
  · exact Nat.lt_of_le_of_lt (read_le first) (hvalue some second)

private theorem readFields_lt {fields : List (Field Schema)} {vs : List Value}
    (required : nullableAll fields = false)
    (each : ∀ f ∈ fields, f.schema.nullable = false → ∀ {offset stop v log},
      f.schema.read bytes offset = ⟨log, .ok (v, stop)⟩ → offset < stop)
    (h : readFields fields bytes offset = ⟨log, .ok (vs, stop)⟩) : offset < stop := by
  induction fields generalizing offset vs log with
  | nil => cases required
  | cons f fields ih =>
    obtain ⟨w, middle, rest, l, m, head, tail, rfl, rfl⟩ := readFields_cons_eq_ok_iff.mp h
    have behind : middle ≤ stop := read_le (read_record_eq_ok_iff.mpr ⟨rest, rfl, tail⟩)
    rcases Bool.and_eq_false_iff.mp required with some | some
    · exact Nat.lt_of_lt_of_le (each f List.mem_cons_self some head) behind
    · exact Nat.lt_of_le_of_lt (read_le head)
        (ih some (fun g hg => each g (List.mem_cons_of_mem f hg)) tail)

/-- What cannot take nothing takes something, every time. -/
theorem read_lt (required : s.nullable = false)
    (h : s.read bytes offset = ⟨log, .ok (v, stop)⟩) : offset < stop := by
  induction s generalizing offset stop v log with
  | int format =>
    obtain ⟨-, x, rfl, bs, himage, spans, -⟩ := read_int_eq_ok_iff.mp h
    exact spans.lt (IntFormat.image_ne_nil himage)
  | float precision order =>
    obtain ⟨-, x, rfl, -, bs, himage, spans, -⟩ := read_float_eq_ok_iff.mp h
    have size := Floating.length_image himage
    refine spans.lt (List.ne_nil_of_length_pos ?_)
    cases precision <;> simp [size, Precision.bytes]
  | bool header =>
    obtain ⟨b, rfl, hcount⟩ := read_bool_eq_ok_iff.mp h
    exact Header.readCount_lt hcount
  | slot content shape =>
    obtain ⟨payload, hread, -⟩ := read_slot_eq_ok_iff.mp h
    exact Slot.read_lt required hread
  | constant expected =>
    obtain ⟨-, rfl, spans, -⟩ := read_constant_eq_ok_iff.mp h
    exact spans.lt (by simpa [nullable] using required)
  | record fields each =>
    obtain ⟨vs, rfl, hread⟩ := read_record_eq_ok_iff.mp h
    exact readFields_lt required (fun f hf some _ _ _ _ => each f hf some) hread
  | array item length limit hitem =>
    obtain ⟨vs, rfl, hread⟩ := read_array_eq_ok_iff.mp h
    exact Items.read_lt required read_le (fun some _ _ _ _ => hitem some) hread
  | map kind key value length limit hkey hvalue =>
    obtain ⟨pairs, entries, l, m, rfl, hread, -, rfl⟩ := read_map_eq_ok_iff.mp h
    refine Items.read_lt required readPair_le (fun some _ _ _ _ => ?_) hread
    exact readPair_lt some (fun some _ _ _ _ => hkey some) fun some _ _ _ _ => hvalue some
  | option header inner hinner =>
    rcases read_option_eq_ok_iff.mp h with ⟨rfl, hcount⟩ | ⟨w, middle, rfl, hcount, hread⟩
    · exact Header.readCount_lt hcount
    · exact Nat.lt_of_lt_of_le (Header.readCount_lt hcount) (read_le hread)
  | union header variants each =>
    obtain ⟨tag, middle, hcount, hcase⟩ := read_union_eq_ok_iff.mp h
    obtain ⟨w, hw, -, payload, rfl, hread⟩ := readCase_eq_ok hcase
    exact Nat.lt_of_lt_of_le (Header.readCount_lt hcount) (read_le hread)
  | framed inner header limit hinner =>
    obtain ⟨outer, payload, middle, -, -, houter, first, second, -, -⟩ :=
      read_framed_eq_ok_iff.mp h
    exact Nat.lt_of_lt_of_le (first.lt (Header.image_ne_nil houter)) second.le
  | converted conversion inner hinner =>
    obtain ⟨w, rfl, hread⟩ := read_converted_eq_ok_iff.mp h
    exact hinner required hread

private theorem readFields_at_end {fields : List (Field Schema)}
    (each : ∀ f ∈ fields, ∃ v log, f.schema.read bytes bytes.size = ⟨log, .ok (v, bytes.size)⟩) :
    ∃ vs log, readFields fields bytes bytes.size = ⟨log, .ok (vs, bytes.size)⟩ := by
  induction fields with
  | nil => exact ⟨[], [], rfl⟩
  | cons f fields ih =>
    obtain ⟨v, l, head⟩ := each f List.mem_cons_self
    obtain ⟨vs, m, tail⟩ := ih fun g hg => each g (List.mem_cons_of_mem f hg)
    exact ⟨v :: vs, l ++ m,
      readFields_cons_eq_ok_iff.mpr ⟨v, bytes.size, vs, l, m, head, tail, rfl, rfl⟩⟩

private theorem nullable_of_mem {fields : List (Field Schema)} {f : Field Schema}
    (h : nullableAll fields = true) (hf : f ∈ fields) : f.schema.nullable = true := by
  induction fields with
  | nil => cases hf
  | cons g fields ih =>
    obtain ⟨here, behind⟩ := Bool.and_eq_true_iff.mp h
    cases hf with
    | head => exact here
    | tail _ hf => exact ih behind hf

private theorem readPair_at_end {key value : Schema}
    (hkey : ∃ v log, key.read bytes bytes.size = ⟨log, .ok (v, bytes.size)⟩)
    (hvalue : ∃ v log, value.read bytes bytes.size = ⟨log, .ok (v, bytes.size)⟩) :
    ∃ log e, readPair key value bytes bytes.size = ⟨log, .ok (e, bytes.size)⟩ := by
  obtain ⟨k, l, first⟩ := hkey
  obtain ⟨v, m, second⟩ := hvalue
  exact ⟨l ++ m, (k, v), readPair_eq_ok_iff.mpr ⟨bytes.size, l, m, first, second, rfl⟩⟩

/-- What may take nothing is read from where nothing is left. -/
theorem read_at_end (valid : s.validate = .ok ()) (empty : s.nullable = true)
    (small : bytes.size < addressSpace) :
    ∃ v log, s.read bytes bytes.size = ⟨log, .ok (v, bytes.size)⟩ := by
  induction s with
  | int | float | bool | option | union | framed => cases empty
  | slot content shape =>
    have nothing := Slot.read_at_end empty small
    obtain ⟨v, hv⟩ := content.exists_ofBytes_nil
    exact ⟨v, [], read_slot_eq_ok_iff.mpr ⟨[], nothing, hv⟩⟩
  | constant expected =>
    cases List.isEmpty_iff.mp empty
    exact ⟨.unit, [], read_constant_eq_ok_iff.mpr ⟨rfl, rfl, .nil (Nat.le_refl _), small⟩⟩
  | record fields each =>
    obtain ⟨vs, log, hread⟩ := readFields_at_end fun f hf =>
      each f hf (part_valid valid (List.mem_map_of_mem hf)) (nullable_of_mem empty hf)
    exact ⟨.list vs, log, read_record_eq_ok_iff.mpr ⟨vs, rfl, hread⟩⟩
  | array item length limit hitem =>
    have one := fun possible => hitem (part_valid valid List.mem_cons_self) possible
    obtain ⟨vs, log, hread⟩ := Items.read_at_end empty (item_sized valid) small fun possible =>
      exists_comm.mp (one possible)
    exact ⟨.list vs, log, read_array_eq_ok_iff.mpr ⟨vs, rfl, hread⟩⟩
  | map kind key value length limit hkey hvalue =>
    obtain ⟨keys, values⟩ := pair_valid valid
    obtain ⟨pairs, l, hread⟩ := Items.read_at_end empty (pair_sized valid) small fun possible => by
      obtain ⟨keyPossible, valuePossible⟩ := Bool.and_eq_true_iff.mp possible
      exact readPair_at_end (hkey keys keyPossible) (hvalue values valuePossible)
    obtain ⟨m, hgather⟩ := outcome_eq_ok.mp (Association.gather_outcome kind pairs)
    exact ⟨_, l ++ m, read_map_eq_ok_iff.mpr ⟨pairs, _, l, m, rfl, hread, hgather, rfl⟩⟩
  | converted conversion inner hinner =>
    obtain ⟨w, log, hread⟩ := hinner valid empty
    exact ⟨conversion.load w, log, read_converted_eq_ok_iff.mpr ⟨w, rfl, hread⟩⟩

/-- An array or a map reads `count` items between the two offsets, pairs being counted before their
keys are compared. -/
def ReadsItems (bytes : Bytes) (offset count stop : Nat) : Schema → Prop
  | array item length limit =>
    ∃ items, ((array item length limit).read bytes offset).outcome = .ok (.list items, stop) ∧
      items.length = count
  | map kind key value length limit =>
    ∃ pairs, (Items.read length limit (Items.pairSize key.size value.size)
        (readPair key value bytes) bytes offset).outcome = .ok (pairs, stop) ∧
      ((map kind key value length limit).read bytes offset).outcome =
        .ok (.map (Association.ofPairs kind pairs), stop) ∧
      pairs.length = count
  | _ => False

/-- No more items are read than bytes. -/
def ItemsBounded (s : Schema) : Prop :=
  ∀ bytes : Bytes, bytes.size < addressSpace → ∀ offset ≤ bytes.size, ∀ count stop,
    s.ReadsItems bytes offset count stop → offset + count ≤ stop

section Bounds

variable {item key value : Schema} {kind : MapKind} {length : Length} {limit : Limit}

/-- Each read of an array is a read of some number of items. -/
theorem readsItems_array
    (h : ((array item length limit).read bytes offset).outcome = .ok (v, stop)) :
    ∃ count, (array item length limit).ReadsItems bytes offset count stop := by
  obtain ⟨log, hread⟩ := outcome_eq_ok.mp h
  obtain ⟨items, rfl, -⟩ := read_array_eq_ok_iff.mp hread
  exact ⟨_, items, h, rfl⟩

theorem readsItems_map
    (h : ((map kind key value length limit).read bytes offset).outcome = .ok (v, stop)) :
    ∃ count, (map kind key value length limit).ReadsItems bytes offset count stop := by
  obtain ⟨log, hread⟩ := outcome_eq_ok.mp h
  obtain ⟨pairs, entries, l, m, rfl, hitems, hgather, -⟩ := read_map_eq_ok_iff.mp hread
  have gathered := Association.gather_outcome kind pairs
  rw [hgather] at gathered
  cases gathered
  exact ⟨_, pairs, outcome_eq_ok.mpr ⟨l, hitems⟩, h, rfl⟩

private theorem array_bounded (uncounted : ∀ n, length ≠ .fixed n)
    (bounded : item.nullable = false ∨ length.Covers limit) :
    (array item length limit).ItemsBounded := by
  rintro bytes - offset inside count stop ⟨items, h, rfl⟩
  obtain ⟨log, hread⟩ := outcome_eq_ok.mp h
  obtain ⟨_, heq, hitems⟩ := read_array_eq_ok_iff.mp hread
  cases heq
  exact Items.length_le_of_read uncounted bounded inside read_le (fun some _ _ _ _ => read_lt some)
    hitems

private theorem map_bounded (uncounted : ∀ n, length ≠ .fixed n)
    (bounded : (key.nullable && value.nullable) = false ∨ length.Covers limit) :
    (map kind key value length limit).ItemsBounded := by
  rintro bytes - offset inside count stop ⟨pairs, h, -, rfl⟩
  obtain ⟨log, hitems⟩ := outcome_eq_ok.mp h
  refine Items.length_le_of_read uncounted bounded inside readPair_le
    (fun some _ _ _ _ => ?_) hitems
  exact readPair_lt some (fun some _ _ _ _ => read_lt some) fun some _ _ _ _ => read_lt some

private theorem array_unbounded (valid : (array item length limit).validate = .ok ())
    (empty : item.nullable = true) (loose : ¬ length.Covers limit) :
    ¬ (array item length limit).ItemsBounded := by
  intro bounded
  have validItem := part_valid valid List.mem_cons_self
  obtain ⟨bytes, items, log, small, many, hitems⟩ :=
    Items.exists_read_of_not_covers (item_sized valid) item.read loose fun bytes small =>
      exists_comm.mp (read_at_end validItem empty small)
  have hread := read_array_eq_ok_iff.mpr ⟨items, rfl, hitems⟩
  have := bounded bytes small 0 (Nat.zero_le _) _ _ ⟨items, outcome_eq_ok.mpr ⟨log, hread⟩, rfl⟩
  omega

private theorem map_unbounded (valid : (map kind key value length limit).validate = .ok ())
    (emptyKey : key.nullable = true) (emptyValue : value.nullable = true)
    (loose : ¬ length.Covers limit) : ¬ (map kind key value length limit).ItemsBounded := by
  intro bounded
  obtain ⟨keys, values⟩ := pair_valid valid
  obtain ⟨bytes, pairs, l, small, many, hitems⟩ :=
    Items.exists_read_of_not_covers (pair_sized valid) (readPair key value) loose
      fun bytes small => readPair_at_end (read_at_end keys emptyKey small)
        (read_at_end values emptyValue small)
  obtain ⟨m, hgather⟩ := outcome_eq_ok.mp (Association.gather_outcome kind pairs)
  have hread := read_map_eq_ok_iff.mpr ⟨pairs, _, l, m, rfl, hitems, hgather, rfl⟩
  have := bounded bytes small 0 (Nat.zero_le _) _ _
    ⟨pairs, outcome_eq_ok.mpr ⟨l, hitems⟩, outcome_eq_ok.mpr ⟨l ++ m, hread⟩, rfl⟩
  omega

end Bounds

/-- Arrays and maps without a fixed count read no more items than bytes exactly where the items
cannot be empty, or where no header announces more of them than it has bytes itself. -/
theorem itemsBounded_iff (kind : MapKind) (item key value : Schema) (length : Length)
    (limit : Limit) (uncounted : ∀ n, length ≠ .fixed n) :
    ((array item length limit).validate = .ok () →
      ((array item length limit).ItemsBounded ↔ item.nullable = false ∨ length.Covers limit)) ∧
    ((map kind key value length limit).validate = .ok () →
      ((map kind key value length limit).ItemsBounded ↔
        key.nullable = false ∨ value.nullable = false ∨ length.Covers limit)) := by
  constructor
  · refine fun valid => ⟨fun bounded => ?_, array_bounded uncounted⟩
    by_contra neither
    obtain ⟨empty, loose⟩ := not_or.mp neither
    exact array_unbounded valid (Bool.not_eq_false _ ▸ empty) loose bounded
  · refine fun valid => ⟨fun bounded => ?_, fun bounded => map_bounded uncounted ?_⟩
    · by_contra none
      obtain ⟨emptyKey, rest⟩ := not_or.mp none
      obtain ⟨emptyValue, loose⟩ := not_or.mp rest
      exact map_unbounded valid (Bool.not_eq_false _ ▸ emptyKey) (Bool.not_eq_false _ ▸ emptyValue)
        loose bounded
    · rwa [Bool.and_eq_false_iff, or_assoc]

theorem itemsBounded_iff_names :
    (array (option (.plain .compact) unit) (.counted (.plain .compact)) .all).ItemsBounded ∧
      (map .insertion unit (slot (.text .utf8) ⟨.counted (.plain .compact), 0, false, .all⟩)
        (.counted (.plain .compact)) .all).ItemsBounded := by
  obtain ⟨arrays, maps⟩ := itemsBounded_iff .insertion (option (.plain .compact) unit) unit
    (slot (.text .utf8) ⟨.counted (.plain .compact), 0, false, .all⟩) (.counted (.plain .compact))
    .all (by simp)
  exact ⟨(arrays rfl).mpr (.inl rfl), (maps rfl).mpr (.inr (.inl rfl))⟩

/-- Lists that have no item, behind the byte that counts them. -/
def emptyLists : Schema :=
  array (array (int .compact) (.fixed 0) .all) (.counted (.plain (.word false .one .little))) .all

set_option maxRecDepth 4000 in
/-- What takes nothing is not of a fixed size here, so the check lets it pass. -/
theorem emptyLists_unbounded :
    emptyLists.validate = .ok () ∧
      emptyLists.ReadsItems #[255] 0 255 1 ∧ ¬ emptyLists.ItemsBounded := by
  have reads : emptyLists.ReadsItems #[255] 0 255 1 := ⟨List.replicate 255 (.list []), rfl, rfl⟩
  refine ⟨rfl, reads, fun bounded => ?_⟩
  have few := bounded #[255] (by decide) 0 (by decide) 255 1 reads
  omega

/-- Items of a known size are checked well. -/
theorem itemsBounded_of_fixed {item : Schema} {length : Length} {limit : Limit} {n : Nat}
    (valid : (array item length limit).validate = .ok ()) (uncounted : ∀ n, length ≠ .fixed n)
    (size : item.size = .ok (.fixed n)) : (array item length limit).ItemsBounded := by
  refine array_bounded uncounted (.inl ?_)
  by_contra empty
  have validItem := part_valid valid List.mem_cons_self
  have small : (#[] : Bytes).size < addressSpace := by decide
  obtain ⟨v, log, hread⟩ := read_at_end validItem (Bool.not_eq_false _ ▸ empty) small
  have nothing : n = 0 := by
    have := read_of_fixed size hread
    omega
  subst nothing
  obtain ⟨_, _, h⟩ := Outcome.bind_eq_ok.mp valid
  obtain ⟨_, hsize, h⟩ := Outcome.bind_eq_ok.mp h
  cases size.symm.trans hsize
  cases length with
  | fixed k => exact uncounted k rfl
  | counted | remainder => cases h

end Schema
end ByteSchema
