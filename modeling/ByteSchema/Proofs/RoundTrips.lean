import ByteSchema.Proofs.FixedSizes
import ByteSchema.Proofs.Gathering
import ByteSchema.Proofs.SharedInput
import ByteSchema.Proofs.Text.ContentBytes

/-!
# Values come back from their bytes

Wherever the bytes of a value stand, reading there answers the value and stops behind them, with any
bytes in front and any bytes after.  What has no length written down goes on to the end of its input
instead: it may only stand last, in a frame or with nothing after it.  Of the value it is asked that
no other one is written the same way.
-/
namespace ByteSchema.Schema

open Bytes Reading

/-- With no number of its own a length needs the end of the input. -/
def lengthPlaced (length : Length) (last : Bool) : Bool :=
  match length with
  | .remainder => last
  | _ => true

mutual

/-- What goes on to the end of the input stands only at the end of a frame or, if `last`, at that of
the schema. -/
def placed : Schema → Bool → Bool
  | int _, _ | float _ _, _ | bool _, _ | constant _, _ => true
  | slot _ shape, last => lengthPlaced shape.length last
  | record fields, last => fieldsPlaced fields last
  | array item length _, last => lengthPlaced length last && item.placed false
  | map _ key value length _, last =>
    lengthPlaced length last && (key.placed false && value.placed false)
  | option _ inner, last => inner.placed last
  | union _ variants, last => variantsPlaced variants last
  | framed inner _ _, _ => inner.placed true
  | converted _ inner, last => inner.placed last

def fieldsPlaced : List (Field Schema) → Bool → Bool
  | [], _ => true
  | f :: fields, last => f.schema.placed (last && fields.isEmpty) && fieldsPlaced fields last

def variantsPlaced : List (Variant Schema) → Bool → Bool
  | [], _ => true
  | v :: variants, last => v.schema.placed last && variantsPlaced variants last

end

/-- The bytes of a value tell where they end. -/
def SelfDelimiting (s : Schema) : Prop := s.placed false = true

/-- The bytes of a value tell where they end, or end with the input. -/
def TailOnly (s : Schema) : Prop := s.placed true = true

instance : DecidablePred SelfDelimiting := fun s =>
  inferInstanceAs (Decidable (s.placed false = true))

instance : DecidablePred TailOnly := fun s => inferInstanceAs (Decidable (s.placed true = true))

private theorem and_interchange (a b c d : Bool) : (a && b && (c && d)) = (a && c && (b && d)) := by
  ac_rfl

private theorem lengthPlaced_false (length : Length) (last : Bool) :
    lengthPlaced length false = (length != .remainder && lengthPlaced length last) := by
  cases length <;> rfl

private theorem fieldsPlaced_false {fields : List (Field Schema)}
    (each : ∀ f ∈ fields, ∀ last,
      f.schema.placed false = (f.schema.delimited && f.schema.placed last)) (last : Bool) :
    fieldsPlaced fields false = (fieldsDelimited fields && fieldsPlaced fields last) := by
  induction fields with
  | nil => rfl
  | cons f fields ih =>
    rw [fieldsPlaced, fieldsPlaced, fieldsDelimited, and_interchange,
      ← each f List.mem_cons_self, ← ih fun g hg => each g (List.mem_cons_of_mem f hg),
      Bool.false_and]

private theorem variantsPlaced_false {variants : List (Variant Schema)}
    (each : ∀ v ∈ variants, ∀ last,
      v.schema.placed false = (v.schema.delimited && v.schema.placed last)) (last : Bool) :
    variantsPlaced variants false =
      (variantsDelimited variants && variantsPlaced variants last) := by
  induction variants with
  | nil => rfl
  | cons v variants ih =>
    rw [variantsPlaced, variantsPlaced, variantsDelimited, and_interchange,
      ← each v List.mem_cons_self, ← ih fun w hw => each w (List.mem_cons_of_mem v hw)]

/-- Nothing but what stands outside of every frame depends on what comes after the schema. -/
theorem placed_false (s : Schema) (last : Bool) :
    s.placed false = (s.delimited && s.placed last) := by
  induction s generalizing last with
  | int | float | bool | constant | framed => rfl
  | slot content shape => exact lengthPlaced_false shape.length last
  | record fields each => exact fieldsPlaced_false each last
  | array item length limit hitem =>
    rw [placed, placed, delimited, and_interchange, ← hitem, ← lengthPlaced_false]
  | map kind key value length limit hkey hvalue =>
    rw [placed, placed, delimited, and_interchange, and_interchange key.delimited,
      ← hkey, ← hvalue, ← lengthPlaced_false]
  | option header inner hinner => exact hinner last
  | union header variants each => exact variantsPlaced_false each last
  | converted conversion inner hinner => exact hinner last

/-- The bytes of a value tell where they end just where nothing outside of the frames goes on to the
end of the input, and what does so in a frame stands last there. -/
theorem selfDelimiting_iff {s : Schema} :
    s.SelfDelimiting ↔ s.delimited = true ∧ s.TailOnly := by
  rw [SelfDelimiting, placed_false s true, Bool.and_eq_true, TailOnly]

theorem SelfDelimiting.tailOnly {s : Schema} (h : s.SelfDelimiting) : s.TailOnly :=
  (selfDelimiting_iff.mp h).2

mutual

/-- The values of a schema that are all that their bytes can stand for.  Limits are only looked at
when reading, so a value has to be within them. -/
def Canonical : Schema → Value → Prop
  | int _, _ | constant _, _ => True
  | float precision _, v => ∃ x, v = .float x ∧ x.precision = precision
  | bool header, v => ∃ b, v = .bool b ∧ header.Admits b.toNat
  | slot content shape, v =>
    content.Small v ∧ ∀ payload, content.toBytes v = .ok payload → shape.Admits payload
  | record fields, v => ∃ vs, v = .list vs ∧ CanonicalFields fields vs
  | array item length limit, v =>
    ∃ vs, v = .list vs ∧ Items.Readable length limit item.encodeSize vs ∧ ∀ w ∈ vs, item.Canonical w
  | map kind key value length limit, v =>
    ∃ entries, v = .map entries ∧
      Items.Readable length limit
        (fun e => do checkedAdd (← key.encodeSize e.1) (← value.encodeSize e.2)) entries ∧
      Association.Kept kind entries ∧ ∀ e ∈ entries, key.Canonical e.1 ∧ value.Canonical e.2
  | option header inner, v =>
    (v = .absent ∧ header.Admits 0) ∨ ∃ w, v = .present w ∧ header.Admits 1 ∧ inner.Canonical w
  | union header variants, v =>
    ∃ label payload, v = .case label payload ∧ CanonicalCase header label payload variants
  | framed inner header limit, v =>
    inner.Canonical v ∧
      ∀ len, inner.encodeSize v = .ok len → limit.contains len = true ∧ header.Admits len
  | converted conversion inner, v =>
    conversion.load (conversion.store v) = v ∧ inner.Canonical (conversion.store v)

def CanonicalFields : List (Field Schema) → List Value → Prop
  | f :: fields, v :: vs => f.schema.Canonical v ∧ CanonicalFields fields vs
  | _, _ => True

/-- The first variant with the label is the one that counts. -/
def CanonicalCase (header : Header) (label : String) (payload : Value) :
    List (Variant Schema) → Prop
  | [] => True
  | v :: variants =>
    if v.label = label then
      v.tag < addressSpace ∧ header.Admits v.tag ∧ v.schema.Canonical payload
    else CanonicalCase header label payload variants

end

/-- Canonical values are read where their images stand. -/
def ReadsBack (s : Schema) : Prop :=
  ∀ {last : Bool} {v : Value} {bs : List UInt8} {bytes : Bytes} {offset stop : Nat},
    s.placed last = true → s.Canonical v → s.image v = .ok bs → Spans bytes offset bs stop →
      stop < addressSpace → (last = true → stop = bytes.size) →
      s.read bytes offset = ⟨[], .ok (v, stop)⟩

variable {s : Schema} {bytes : Bytes} {offset stop : Nat} {v : Value} {bs : List UInt8}
  {last : Bool}

private theorem ends_of_remainder {length : Length} (placed : lengthPlaced length last = true)
    (ends : last = true → stop = bytes.size) : length = .remainder → stop = bytes.size := by
  rintro rfl
  exact ends placed

private theorem readCount_of_image {header : Header} {n : Nat} (h : header.image n = .ok bs)
    (admits : header.Admits n) (fits : n < addressSpace) (spans : Spans bytes offset bs stop)
    (small : stop < addressSpace) : header.readCount bytes offset = ⟨[], .ok (n, stop)⟩ :=
  header.readCount_counts.mpr ⟨rfl, fits, admits, bs, h, spans, small⟩

private theorem readFields_of_image {fields : List (Field Schema)} {vs : List Value}
    (each : ∀ f ∈ fields, f.schema.ReadsBack) (placed : fieldsPlaced fields last = true)
    (canonical : CanonicalFields fields vs) (h : imageFields fields vs = .ok bs)
    (spans : Spans bytes offset bs stop) (small : stop < addressSpace)
    (ends : last = true → stop = bytes.size) :
    readFields fields bytes offset = ⟨[], .ok (vs, stop)⟩ := by
  induction fields generalizing vs bs offset with
  | nil =>
    cases vs with
    | nil =>
      cases h
      cases spans.stop_eq
      rfl
    | cons v vs => cases h
  | cons f fields ih =>
    cases vs with
    | nil => cases h
    | cons v vs =>
      obtain ⟨first, rest, hfirst, hrest, rfl⟩ := append_eq_ok_iff.mp h
      obtain ⟨middle, front, back⟩ := spans.of_append
      obtain ⟨here, behind⟩ := Bool.and_eq_true_iff.mp placed
      -- The last field ends where the record ends, since the fields after it take nothing.
      have endsHere : (last && fields.isEmpty) = true → middle = bytes.size := by
        intro both
        obtain ⟨isLast, none⟩ := Bool.and_eq_true_iff.mp both
        cases List.isEmpty_iff.mp none
        cases vs with
        | nil =>
          cases hrest
          exact back.stop_eq.symm.trans (ends isLast)
        | cons w vs => cases hrest
      have head := each f List.mem_cons_self here canonical.1 hfirst front
        (Nat.lt_of_le_of_lt back.le small) endsHere
      have tail := ih (fun g hg => each g (List.mem_cons_of_mem f hg)) behind canonical.2 hrest back
      exact readFields_cons_eq_ok_iff.mpr ⟨v, middle, vs, [], [], head, tail, rfl, rfl⟩

private theorem readPair_of_image {key value : Schema} {e : Value × Value}
    (hkey : key.ReadsBack) (hvalue : value.ReadsBack) (keyPlaced : key.placed false = true)
    (valuePlaced : value.placed false = true)
    (canonical : key.Canonical e.1 ∧ value.Canonical e.2)
    (h : imagePair key value e = .ok bs)
    (spans : Spans bytes offset bs stop) (small : stop < addressSpace) :
    readPair key value bytes offset = ⟨[], .ok (e, stop)⟩ := by
  obtain ⟨first, second, hfirst, hsecond, rfl⟩ := imagePair_eq_ok_iff.mp h
  obtain ⟨middle, front, back⟩ := spans.of_append
  have head := hkey keyPlaced canonical.1 hfirst front (Nat.lt_of_le_of_lt back.le small) (by simp)
  have tail := hvalue valuePlaced canonical.2 hsecond back small (by simp)
  exact readPair_eq_ok_iff.mpr ⟨middle, [], [], head, tail, rfl⟩

theorem encodeSize_of_pair {key value : Schema} {e : Value × Value}
    (keys : key.Everywhere Sized) (values : value.Everywhere Sized)
    (h : imagePair key value e = .ok bs) (small : bs.length < addressSpace) :
    (do checkedAdd (← key.encodeSize e.1) (← value.encodeSize e.2)) = .ok bs.length := by
  obtain ⟨first, second, hfirst, hsecond, rfl⟩ := imagePair_eq_ok_iff.mp h
  rw [List.length_append] at small ⊢
  have head := encodeSize_of_image keys hfirst (by omega)
  have tail := encodeSize_of_image values hsecond (by omega)
  exact Outcome.bind_eq_ok.mpr ⟨_, head, Outcome.bind_eq_ok.mpr ⟨_, tail,
    checkedAdd_eq_ok_iff.mpr ⟨small, rfl⟩⟩⟩

/-- The variant that a canonical case is written for. -/
private theorem variant_of_image {header : Header} {label : String} {payload : Value}
    {variants : List (Variant Schema)} (placed : variantsPlaced variants last = true)
    (canonical : CanonicalCase header label payload variants)
    (h : imageCase header label payload variants = .ok bs) :
    ∃ v ∈ variants, v.label = label ∧ v.schema.placed last = true ∧ v.tag < addressSpace ∧
      header.Admits v.tag ∧ v.schema.Canonical payload ∧ ∃ first second,
        header.image v.tag = .ok first ∧ v.schema.image payload = .ok second ∧
          bs = first ++ second := by
  induction variants with
  | nil => cases h
  | cons v variants ih =>
    obtain ⟨here, behind⟩ := Bool.and_eq_true_iff.mp placed
    rw [imageCase] at h
    rw [CanonicalCase] at canonical
    by_cases same : v.label = label
    · rw [if_pos same] at h canonical
      obtain ⟨small, admits, inside⟩ := canonical
      exact ⟨v, List.mem_cons_self, same, here, small, admits, inside, append_eq_ok_iff.mp h⟩
    · rw [if_neg same] at h canonical
      obtain ⟨w, hw, found⟩ := ih behind canonical h
      exact ⟨w, List.mem_cons_of_mem v hw, found⟩

/-- By induction over the schema.  A frame starts over: its payload is read from a slice of its own,
where it is last. -/
theorem readsBack (valid : s.validate = .ok ()) (sized : s.Everywhere Sized) : s.ReadsBack := by
  intro last v bs bytes offset stop placed canonical h spans small ends
  induction s generalizing last v bs bytes offset stop with
  | int format =>
    obtain ⟨x, hx, h⟩ := Outcome.bind_eq_ok.mp h
    cases v with
    | int n =>
      cases hx
      exact read_int_eq_ok_iff.mpr ⟨rfl, x, rfl, bs, h, spans, small⟩
    | _ => cases hx
  | float precision order =>
    obtain ⟨x, rfl, width⟩ := canonical
    exact read_float_eq_ok_iff.mpr ⟨rfl, x, rfl, width, bs, h, spans, small⟩
  | bool header =>
    obtain ⟨b, rfl, admits⟩ := canonical
    have fits : b.toNat < addressSpace := by cases b <;> decide
    exact read_bool_eq_ok_iff.mpr ⟨b, rfl, readCount_of_image h admits fits spans small⟩
  | slot content shape =>
    obtain ⟨payload, hpayload, h⟩ := Outcome.bind_eq_ok.mp h
    have found := Slot.read_of_image h (canonical.2 payload hpayload) spans small
      (ends_of_remainder placed ends)
    exact read_slot_eq_ok_iff.mpr
      ⟨payload, found, Content.ofBytes_of_toBytes hpayload canonical.1⟩
  | constant expected =>
    obtain ⟨u, hu, h⟩ := Outcome.bind_eq_ok.mp h
    cases h
    cases v with
    | unit => exact read_constant_eq_ok_iff.mpr ⟨rfl, rfl, spans, small⟩
    | _ => cases hu
  | record fields each =>
    obtain ⟨vs, rfl, canonical⟩ := canonical
    have inside : ∀ f ∈ fields, f.schema.ReadsBack := by
      intro f hf last v bs bytes offset stop
      exact each f hf (part_valid valid (List.mem_map_of_mem hf)) (sized.field hf)
    exact read_record_eq_ok_iff.mpr
      ⟨vs, rfl, readFields_of_image inside placed canonical h spans small ends⟩
  | array item length limit hitem =>
    obtain ⟨vs, rfl, readable, canonical⟩ := canonical
    obtain ⟨here, below⟩ := Bool.and_eq_true_iff.mp placed
    have inside : item.Everywhere Sized := sized.part List.mem_cons_self
    obtain ⟨size, hsize⟩ := inside.here
    refine read_array_eq_ok_iff.mpr ⟨vs, rfl, Items.read_of_image h readable spans small
      (ends_of_remainder here ends) hsize ?_ ?_ ?_⟩
    · intro k hk w hw part hpart
      exact length_image_of_fixed (hk ▸ hsize) hpart
    · intro w hw part hpart fits
      exact encodeSize_of_image inside hpart fits
    · intro w hw part start stop hpart found fits
      exact hitem (part_valid valid List.mem_cons_self) inside below (canonical w hw) hpart found
        fits (by simp)
  | map kind key value length limit hkey hvalue =>
    obtain ⟨entries, rfl, readable, kept, canonical⟩ := canonical
    obtain ⟨here, below⟩ := Bool.and_eq_true_iff.mp placed
    obtain ⟨keyPlaced, valuePlaced⟩ := Bool.and_eq_true_iff.mp below
    obtain ⟨keys, values⟩ := sized.pair
    obtain ⟨_, hsized⟩ := sized.here
    obtain ⟨size, hsize, _⟩ := Outcome.bind_eq_ok.mp hsized
    have keysBack : key.ReadsBack := by
      intro last v bs bytes offset stop
      exact hkey (part_valid valid List.mem_cons_self) keys
    have valuesBack : value.ReadsBack := by
      intro last v bs bytes offset stop
      exact hvalue (part_valid valid (List.mem_cons_of_mem _ List.mem_cons_self)) values
    refine read_map_eq_ok_iff.mpr ⟨entries, entries, [], [], rfl, Items.read_of_image h readable
      spans small (ends_of_remainder here ends) hsize ?_ ?_ ?_,
      Association.gather_of_kept kept, rfl⟩
    · intro k hk e he part hpart
      exact length_image_pair (hk ▸ hsize) length_image_of_fixed length_image_of_fixed hpart
    · intro e he part hpart fits
      exact encodeSize_of_pair keys values hpart fits
    · intro e he part start stop hpart found fits
      exact readPair_of_image keysBack valuesBack keyPlaced valuePlaced (canonical e he) hpart found
        fits
  | option header inner hinner =>
    rcases canonical with ⟨rfl, admits⟩ | ⟨w, rfl, admits, canonical⟩
    · exact read_option_eq_ok_iff.mpr
        (.inl ⟨rfl, readCount_of_image h admits (by decide) spans small⟩)
    · obtain ⟨first, second, hfirst, hsecond, rfl⟩ := append_eq_ok_iff.mp h
      obtain ⟨middle, front, back⟩ := spans.of_append
      have tag := readCount_of_image hfirst admits (by decide) front
        (Nat.lt_of_le_of_lt back.le small)
      have payload := hinner (part_valid valid List.mem_cons_self)
        (sized.part List.mem_cons_self) placed canonical hsecond back small ends
      exact read_option_eq_ok_iff.mpr (.inr ⟨w, middle, rfl, tag, payload⟩)
  | union header variants each =>
    obtain ⟨label, w, rfl, canonical⟩ := canonical
    obtain ⟨u, hu, rfl, inside, fits, admits, canonical, first, second, hfirst, hsecond, rfl⟩ :=
      variant_of_image placed canonical h
    obtain ⟨middle, front, back⟩ := spans.of_append
    have tag := readCount_of_image hfirst admits fits front (Nat.lt_of_le_of_lt back.le small)
    have payload := each u hu (part_valid valid (List.mem_map_of_mem hu)) (sized.variant hu)
      inside canonical hsecond back small ends
    exact read_union_eq_ok_iff.mpr
      ⟨u.tag, middle, tag, readCase_of_mem (tags_nodup valid) hu payload⟩
  | framed inner header limit hinner =>
    have inside : inner.Everywhere Sized := sized.part List.mem_cons_self
    obtain ⟨payload, outer, hpayload, houter, rfl⟩ := Frame.image_eq_ok_iff.mp h
    obtain ⟨middle, front, back⟩ := spans.of_append
    obtain ⟨within, admits⟩ :=
      canonical.2 _ (encodeSize_of_image inside hpayload back.length_lt)
    have whole := spans_whole payload.toArray back.length_lt
    have found := hinner (part_valid valid List.mem_cons_self) inside placed canonical.1 hpayload
      whole back.length_lt fun _ => rfl
    exact read_framed_eq_ok_iff.mpr
      ⟨outer, payload, middle, within, admits, houter, front, back, small, found⟩
  | converted conversion inner hinner =>
    have found := hinner (part_valid valid List.mem_cons_self) (sized.part List.mem_cons_self)
      placed canonical.2 h spans small ends
    exact read_converted_eq_ok_iff.mpr ⟨conversion.store v, canonical.1.symm, found⟩

/-- Encoding a canonical value gives bytes that are read back as the value: between any others if
the schema is delimited by itself, else behind any others; and that are decoded as the value. -/
theorem read_encode (s : Schema) (valid : s.validate = .ok ()) (sized : s.Everywhere Sized)
    (v : Value) (canonical : s.Canonical v) (bytes : Bytes) (h : s.encode v = .ok bytes) :
    (s.SelfDelimiting → ∀ front back : Bytes, front.size + bytes.size < addressSpace →
      s.read (front ++ bytes ++ back) front.size = ⟨[], .ok (v, front.size + bytes.size)⟩) ∧
    (s.TailOnly →
      (∀ front : Bytes, front.size + bytes.size < addressSpace →
        s.read (front ++ bytes) front.size = ⟨[], .ok (v, front.size + bytes.size)⟩) ∧
      s.decode bytes = ⟨[], .ok v⟩) := by
  obtain ⟨bs, himage, fits, rfl⟩ := (encode_eq_ok_iff sized).mp h
  have back : s.ReadsBack := readsBack valid sized
  refine ⟨?_, fun tail => ⟨?_, ?_⟩⟩
  · intro delimited front rest small
    exact back delimited canonical himage (spans_between front bs.toArray rest small) small
      (by simp)
  · intro front small
    have spans := spans_between front bs.toArray #[] small
    rw [Array.append_empty] at spans
    exact back tail canonical himage spans small fun _ => Array.size_append.symm
  · obtain ⟨size, hsize⟩ := sized.here
    have spans := spans_whole bs.toArray fits
    exact decode_of_read hsize (back tail canonical himage spans fits fun _ => rfl)

theorem packet_delimited : packet.SelfDelimiting := by
  decide

set_option maxRecDepth 4000 in
theorem packetValue_canonical : packet.Canonical packetValue := by
  refine ⟨⟨_, rfl, ⟨"data", _, rfl, ?data⟩, ⟨_, rfl, ?names, ?keys, ?entries⟩,
    ⟨_, rfl, ?rest, ?items⟩, trivial⟩, ?frame⟩
  case data =>
    have fits : 7 < addressSpace := by decide
    simp [CanonicalCase, Canonical, CanonicalFields, tuple, Header.Admits, Conversion.raisedBy,
      fits]
  case names => exact ⟨by decide, ⟨rfl, trivial⟩, fun uncounted => by cases uncounted⟩
  case keys => simp [Association.Kept]
  case entries =>
    intro e he
    rcases List.mem_pair.mp he with rfl | rfl
    all_goals
      refine ⟨⟨?_, ?_⟩, trivial⟩
      · rintro _ _ ⟨⟩ ⟨⟩ _
        simp
      · intro payload h
        cases h
        simp [Slot.Admits]
  case rest =>
    refine ⟨by decide, trivial, fun _ w hw n h => ?_⟩
    rcases List.mem_pair.mp hw with rfl | rfl
    all_goals
      cases h
      decide
  case items => simp [Canonical, Header.Admits]
  case frame =>
    intro len h
    cases h
    exact ⟨rfl, trivial, fun _ _ => ⟨rfl, trivial⟩⟩

set_option maxRecDepth 4000 in
theorem read_encode_packet :
    packet.validate = .ok () ∧ packet.Everywhere Sized ∧ packet.Canonical packetValue ∧
      packet.SelfDelimiting ∧
      packet.read #[9, 1, 20, 7, 172, 2, 1, 0, 2, 10, 255, 0, 254, 255, 0, 0, 0, 5, 0, 0, 1, 128, 1, 8]
        1 = ⟨[], .ok (packetValue, 23)⟩ ∧
      packet.decode #[1, 20, 7, 172, 2, 1, 0, 2, 10, 255, 0, 254, 255, 0, 0, 0, 5, 0, 0, 1, 128, 1] =
        ⟨[], .ok packetValue⟩ := by
  obtain ⟨delimited, tail⟩ := read_encode packet rfl packet_sized packetValue packetValue_canonical
    #[1, 20, 7, 172, 2, 1, 0, 2, 10, 255, 0, 254, 255, 0, 0, 0, 5, 0, 0, 1, 128, 1] rfl
  refine ⟨rfl, packet_sized, packetValue_canonical, packet_delimited, ?_, ?_⟩
  · exact delimited packet_delimited #[9] #[8] (by decide)
  · exact (tail packet_delimited.tailOnly).2

end ByteSchema.Schema
