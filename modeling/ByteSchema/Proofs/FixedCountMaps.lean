import ByteSchema.Proofs.CanonicalBytes
import ByteSchema.Proofs.OwnBytes
import ByteSchema.Proofs.PairArrays

/-!
# Maps of a fixed number of pairs

The reader counts pairs and the writer counts entries.  They differ where a key came again: then the
map that was read has too few entries to be written.  Otherwise it is written and read again, with
the pairs as they came or in the order of their keys.  Pairs that change places must not depend on
what stands behind them.
-/
namespace ByteSchema

open Bytes Reading

namespace Items

variable {α : Type} {image : α → Outcome (List UInt8)} {items : List α}

theorem exists_imageAll (each : ∀ a ∈ items, ∃ bs, image a = .ok bs) :
    ∃ bs, imageAll image items = .ok bs := by
  induction items with
  | nil => exact ⟨[], rfl⟩
  | cons a items ih =>
    obtain ⟨first, hfirst⟩ := each a List.mem_cons_self
    obtain ⟨rest, hrest⟩ := ih fun b hb => each b (List.mem_cons_of_mem a hb)
    exact ⟨first ++ rest, append_eq_ok_iff.mpr ⟨first, rest, hfirst, hrest, rfl⟩⟩

theorem image_fixed_eq_ok_iff {n : Nat} {bs : List UInt8} :
    Items.image (.fixed n) image items = .ok bs ↔
      items.length = n ∧ imageAll image items = .ok bs := by
  rw [Items.image, append_eq_ok_iff]
  constructor
  · rintro ⟨count, rest, hcount, hrest, rfl⟩
    obtain ⟨_, hmatch, hcount⟩ := Outcome.bind_eq_ok.mp hcount
    cases hcount
    exact ⟨(Length.matchCount_eq_ok_iff.mp hmatch).symm, hrest⟩
  · rintro ⟨same, hrest⟩
    have hmatch : Length.matchCount n items.length = .ok () :=
      Length.matchCount_eq_ok_iff.mpr same.symm
    exact ⟨[], bs, Outcome.bind_eq_ok.mpr ⟨(), hmatch, rfl⟩, hrest, rfl⟩

end Items

namespace Schema

variable {s : Schema} {v : Value} {bytes out : Bytes} {offset stop : Nat} {log : List Event}

/-- The value is encoded, to bytes that decode to it. -/
def RoundTrips (s : Schema) (v : Value) : Prop :=
  ∃ out, s.encode v = .ok out ∧ (s.decode out).outcome = .ok v

/-- What is decoded is encoded again, to bytes that decode to the same value. -/
def Reencodes (s : Schema) : Prop :=
  ∀ bytes v, (s.decode bytes).outcome = .ok v → s.RoundTrips v

/-- What is decoded is encoded again to the bytes that it came from. -/
def ReencodesExactly (s : Schema) : Prop :=
  ∀ bytes v, (s.decode bytes).outcome = .ok v → s.encode v = .ok bytes

theorem ReencodesExactly.reencodes (h : s.ReencodesExactly) : s.Reencodes :=
  fun bytes v decoded => ⟨bytes, h bytes v decoded, decoded⟩

/-- Without maps nothing is left out. -/
theorem reencodesExactly (sized : s.Everywhere Sized) (faithful : s.Everywhere Faithful)
    (mapless : s.Everywhere (·.isMap = false)) : s.ReencodesExactly := by
  intro bytes v h
  obtain ⟨log, hdecode⟩ := outcome_eq_ok.mp h
  obtain ⟨-, -, -, hread⟩ := read_of_decode hdecode
  obtain rfl := read_quiet mapless hread
  obtain ⟨bs, himage, spans⟩ := recovers faithful hread (by simp) (Nat.zero_le _)
  have total : bytes.size = 0 + bs.length := spans.stop_eq
  have small := spans.length_lt
  have same : bs = bytes.toList := spans.unique (spans_whole bytes (by omega))
  refine (encode_eq_ok_iff sized).mpr ⟨bs, himage, small, ?_⟩
  rw [same, Array.toArray_toList]

private theorem image_of_encode (sized : s.Everywhere Sized) (h : s.encode v = .ok out) :
    s.image v = .ok out.toList := by
  obtain ⟨bs, himage, -, rfl⟩ := (encode_eq_ok_iff sized).mp h
  exact himage

variable {kind : MapKind} {key value : Schema} {n : Nat} {limit : Limit}
  {pairs entries : List (Value × Value)} {e : Value × Value}

/-- A pair that was read stands in two stretches, each of which decodes to its half of the pair. -/
private theorem stretches_of_pair {keySize valueSize : Size} (keySized : key.size = .ok keySize)
    (valueSized : value.size = .ok valueSize) (small : bytes.size < addressSpace)
    (inside : offset ≤ bytes.size) (h : readPair key value bytes offset = ⟨log, .ok (e, stop)⟩) :
    ∃ middle, offset ≤ middle ∧ middle ≤ stop ∧ stop ≤ bytes.size ∧
      (key.decode (bytes.extract offset middle)).outcome = .ok e.1 ∧
      (value.decode (bytes.extract middle stop)).outcome = .ok e.2 := by
  obtain ⟨middle, l, m, first, second, -⟩ := readPair_eq_ok_iff.mp h
  obtain ⟨le, inside'⟩ := read_advances first inside
  obtain ⟨le', inside''⟩ := read_advances second inside'
  exact ⟨middle, le, le', inside'', decode_of_stretch keySized small inside first,
    decode_of_stretch valueSized small inside' second⟩

/-- The pairs of a map that was decoded, one behind the other in all of the input. -/
private theorem walk_of_decode
    (h : ((map kind key value (.fixed n) limit).decode bytes).outcome = .ok v) :
    ∃ size pairs log, (map kind key value (.fixed n) limit).size = .ok size ∧
      v = .map (Association.ofPairs kind pairs) ∧ pairs.length = n ∧
      Walk (readPair key value bytes) (fun _ _ => True) 0 pairs bytes.size log := by
  obtain ⟨log, hdecode⟩ := outcome_eq_ok.mp h
  obtain ⟨size, hsize, -, hread⟩ := read_of_decode hdecode
  obtain ⟨pairs, entries, l, m, rfl, hitems, hgather, -⟩ := read_map_eq_ok_iff.mp hread
  obtain ⟨-, count, walk⟩ := Items.read_fixed_eq_ok_iff.mp hitems
  have answer := Association.gather_outcome kind pairs
  rw [hgather] at answer
  cases answer
  exact ⟨size, pairs, l, hsize, rfl, count, walk⟩

private theorem read_pairs_of_walk {size : Size}
    (sized : (map kind key value (.fixed pairs.length) limit).size = .ok size)
    (walk : Walk (readPair key value bytes) (fun _ _ => True) 0 pairs bytes.size log) :
    Items.read (.fixed pairs.length) limit (Items.pairSize key.size value.size)
      (readPair key value bytes) bytes 0 = ⟨log, .ok (pairs, bytes.size)⟩ :=
  have ⟨pairSize, known, _⟩ := Outcome.bind_eq_ok.mp sized
  Items.read_fixed_eq_ok_iff.mpr ⟨⟨pairSize, known⟩, rfl, walk⟩

private theorem decode_pairArray_of_walk {size : Size}
    (sized : (map kind key value (.fixed pairs.length) limit).size = .ok size)
    (walk : Walk (readPair key value bytes) (fun _ _ => True) 0 pairs bytes.size log) :
    ((pairArray key value (.fixed pairs.length) limit).decode bytes).outcome =
      .ok (.list (pairs.map .ofPair)) := by
  have hread : (pairArray key value (.fixed pairs.length) limit).read bytes 0 =
      ⟨log, .ok (.list (pairs.map .ofPair), bytes.size)⟩ := by
    rw [read_pairArray, read_pairs_of_walk sized walk, map_eq]
    rfl
  rw [size_map] at sized
  rw [decode_of_read sized hread]

private theorem decode_map_of_walk {size : Size}
    (sized : (map kind key value (.fixed entries.length) limit).size = .ok size)
    (kept : Association.Kept kind entries)
    (walk : Walk (readPair key value bytes) (fun _ _ => True) 0 entries bytes.size log) :
    ((map kind key value (.fixed entries.length) limit).decode bytes).outcome =
      .ok (.map entries) := by
  have hread : (map kind key value (.fixed entries.length) limit).read bytes 0 =
      ⟨log ++ [], .ok (.map entries, bytes.size)⟩ :=
    read_map_eq_ok_iff.mpr ⟨entries, entries, log, [], rfl, read_pairs_of_walk sized walk,
      Association.gather_of_kept kept, rfl⟩
  rw [decode_of_read sized hread]

private theorem encode_map_of_length_ne (other : entries.length ≠ n) :
    (map kind key value (.fixed n) limit).encode (.map entries) =
      Outcome.fail (.lengthMismatch n entries.length) := by
  have refused : Length.matchCount n entries.length =
      Outcome.fail (.lengthMismatch n entries.length) := if_neg (Ne.symm other)
  have size : (map kind key value (.fixed n) limit).encodeSize (.map entries) =
      Outcome.fail (.lengthMismatch n entries.length) := by
    change Items.encodeSize (.fixed n) _ _ entries = _
    rw [Items.encodeSize, Length.countSize, refused]
    rfl
  rw [encode, size]
  rfl

private theorem image_map_fixed_eq_ok_iff {bs : List UInt8} :
    (map kind key value (.fixed n) limit).image (.map entries) = .ok bs ↔
      entries.length = n ∧ imageAll (imagePair key value) entries = .ok bs :=
  Items.image_fixed_eq_ok_iff

/-- Pairs that are written as they came make up the input again. -/
private theorem encode_pairs
    (sized : (map kind key value (.fixed pairs.length) limit).Everywhere Sized)
    (small : bytes.size < addressSpace) (hkey : key.ReencodesExactly)
    (hvalue : value.ReencodesExactly)
    (walk : Walk (readPair key value bytes) (fun _ _ => True) 0 pairs bytes.size log) :
    (map kind key value (.fixed pairs.length) limit).encode (.map pairs) = .ok bytes := by
  obtain ⟨keys, values⟩ := sized.pair
  obtain ⟨keySize, keySized⟩ := keys.here
  obtain ⟨valueSize, valueSized⟩ := values.here
  have each {l x a b} (head : readPair key value bytes a = ⟨l, .ok (x, b)⟩)
      (_ : ∀ e ∈ l, True) (inside : a ≤ bytes.size) :
      ∃ bs, imagePair key value x = .ok bs ∧ Spans bytes a bs b := by
    obtain ⟨middle, le, le', before, first, second⟩ :=
      stretches_of_pair keySized valueSized small inside head
    have front : Spans bytes a (bytes.extract a middle).toList middle :=
      .extract le (by omega) (.inr (by omega))
    have back : Spans bytes middle (bytes.extract middle b).toList b :=
      .extract le' before (.inr (by omega))
    exact ⟨_, imagePair_eq_ok_iff.mpr ⟨_, _, image_of_encode keys (hkey _ _ first),
      image_of_encode values (hvalue _ _ second), rfl⟩, front.append back⟩
  obtain ⟨bs, himage, spans⟩ :=
    Items.imageAll_of_walk walk (fun _ _ => trivial) (Nat.zero_le _) each
  have same : bs = bytes.toList := spans.unique (spans_whole bytes small)
  refine (encode_eq_ok_iff sized).mpr
    ⟨bs, image_map_fixed_eq_ok_iff.mpr ⟨rfl, himage⟩, spans.length_lt, ?_⟩
  rw [same, Array.toArray_toList]

/-- Both halves of every pair that was read come back. -/
private theorem halves_roundTrip {keySize valueSize : Size} (keySized : key.size = .ok keySize)
    (valueSized : value.size = .ok valueSize) (small : bytes.size < addressSpace)
    (hkey : key.Reencodes) (hvalue : value.Reencodes)
    (walk : Walk (readPair key value bytes) (fun _ _ => True) 0 pairs bytes.size log) :
    ∀ e ∈ pairs, key.RoundTrips e.1 ∧ value.RoundTrips e.2 := by
  have forward :
      Walk (readPair key value bytes) (fun a _ => a ≤ bytes.size) 0 pairs bytes.size log :=
    walk.along (Nat.zero_le _) fun head inside => by
      obtain ⟨_, _, _, before, _⟩ := stretches_of_pair keySized valueSized small inside head
      exact before
  refine forward.forall_mem fun head inside => ?_
  obtain ⟨_, _, _, _, first, second⟩ := stretches_of_pair keySized valueSized small inside head
  exact ⟨hkey _ _ first, hvalue _ _ second⟩

private theorem exists_image_pair (keys : key.Everywhere Sized) (values : value.Everywhere Sized)
    (hkey : key.RoundTrips e.1) (hvalue : value.RoundTrips e.2) :
    ∃ bs, imagePair key value e = .ok bs := by
  obtain ⟨first, hfirst, -⟩ := hkey
  obtain ⟨second, hsecond, -⟩ := hvalue
  exact ⟨_, imagePair_eq_ok_iff.mpr ⟨_, _, image_of_encode keys hfirst,
    image_of_encode values hsecond, rfl⟩⟩

/-- Where the image of a pair stands, the pair is read if both halves tell where they end. -/
private theorem readPair_of_roundTrips (keys : key.Everywhere Sized)
    (values : value.Everywhere Sized) (keyClosed : key.delimited = true)
    (valueClosed : value.delimited = true) (hkey : key.RoundTrips e.1)
    (hvalue : value.RoundTrips e.2) {bs : List UInt8} (h : imagePair key value e = .ok bs)
    (spans : Spans bytes offset bs stop) (small : stop < addressSpace) :
    ∃ log, readPair key value bytes offset = ⟨log, .ok (e, stop)⟩ := by
  obtain ⟨first, second, hfirst, hsecond, rfl⟩ := imagePair_eq_ok_iff.mp h
  obtain ⟨middle, front, back⟩ := spans.of_append
  obtain ⟨k, encoded, decoded⟩ := hkey
  obtain ⟨w, encoded', decoded'⟩ := hvalue
  cases hfirst.symm.trans (image_of_encode keys encoded)
  cases hsecond.symm.trans (image_of_encode values encoded')
  obtain ⟨l, head⟩ := read_of_decoded keyClosed (Nat.lt_of_le_of_lt back.le small) decoded front
  obtain ⟨m, tail⟩ := read_of_decoded valueClosed small decoded' back
  exact ⟨l ++ m, readPair_eq_ok_iff.mpr ⟨middle, l, m, head, tail, rfl⟩⟩

/-- Pairs that were read are written and read again in any order that the map keeps. -/
private theorem entries_roundTrip
    (sized : (map kind key value (.fixed entries.length) limit).Everywhere Sized)
    (small : bytes.size < addressSpace) (keyClosed : key.delimited = true)
    (valueClosed : value.delimited = true) (hkey : key.Reencodes) (hvalue : value.Reencodes)
    (walk : Walk (readPair key value bytes) (fun _ _ => True) 0 pairs bytes.size log)
    (among : entries ⊆ pairs) (kept : Association.Kept kind entries)
    (room : ∀ bs, (map kind key value (.fixed entries.length) limit).image (.map entries) = .ok bs →
      bs.length < addressSpace) :
    (map kind key value (.fixed entries.length) limit).RoundTrips (.map entries) := by
  obtain ⟨keys, values⟩ := sized.pair
  obtain ⟨keySize, keySized⟩ := keys.here
  obtain ⟨valueSize, valueSized⟩ := values.here
  obtain ⟨size, hsize⟩ := sized.here
  have halves : ∀ e ∈ entries, key.RoundTrips e.1 ∧ value.RoundTrips e.2 := fun e he =>
    halves_roundTrip keySized valueSized small hkey hvalue walk e (among he)
  obtain ⟨bs, himage⟩ := Items.exists_imageAll fun e he =>
    exists_image_pair keys values (halves e he).1 (halves e he).2
  have whole : (map kind key value (.fixed entries.length) limit).image (.map entries) = .ok bs :=
    image_map_fixed_eq_ok_iff.mpr ⟨rfl, himage⟩
  have fits := room bs whole
  have each : ∀ e ∈ entries, ∀ {part start stop}, imagePair key value e = .ok part →
        Spans bs.toArray start part stop → stop < addressSpace →
        ∃ log, readPair key value bs.toArray start = ⟨log, .ok (e, stop)⟩ ∧ ∀ e ∈ log, True := by
    intro e he part start stop hpart spans small
    obtain ⟨l, hread⟩ := readPair_of_roundTrips keys values keyClosed valueClosed (halves e he).1
      (halves e he).2 hpart spans small
    exact ⟨l, hread, fun _ _ => trivial⟩
  obtain ⟨_, again, -⟩ := Items.walk_of_image himage (spans_whole bs.toArray fits) fits each
  exact ⟨bs.toArray, (encode_eq_ok_iff sized).mpr ⟨bs, whole, fits, rfl⟩,
    decode_map_of_walk hsize kept (again.mono fun _ _ _ => trivial)⟩

/-- A number below 256. -/
def byte : Schema := int (.word false .one .big)

/-- Nothing, or a text up to the end of the input. -/
def memo : Schema :=
  option (.plain (.word false .one .big)) (slot (.text .utf8) ⟨.remainder, 0, false, .all⟩)

theorem byte_reencodes : byte.ReencodesExactly :=
  reencodesExactly (by decide) (by simp [Everywhere, byte, nodes, Faithful]) (by decide)

theorem memo_reencodes : memo.ReencodesExactly :=
  reencodesExactly (by decide) (by simp [Everywhere, memo, nodes, Faithful]) (by decide)

/-- Decoding takes as many pairs as the schema says and makes one entry of all pairs with one key.
Where a key came again, there are fewer entries than pairs, and encoding refuses them.  Otherwise
they are encoded and decoded again, if the bytes of keys and values tell where they end; and where
the pairs came as the map keeps them, which in a map in the order of insertion they always do, the
bytes are those of the input. -/
theorem fixed_map_reencodes (kind : MapKind) (key value : Schema) (n : Nat) (limit : Limit)
    (ordered : kind ≠ .unordered) (sized : (map kind key value (.fixed n) limit).Everywhere Sized)
    (bytes : Bytes) (small : bytes.size < addressSpace) (v : Value)
    (h : ((map kind key value (.fixed n) limit).decode bytes).outcome = .ok v) :
    ∃ pairs entries, v = .map entries ∧
      ((pairArray key value (.fixed n) limit).decode bytes).outcome =
        .ok (.list (pairs.map .ofPair)) ∧
      pairs.length = n ∧ Association.Gathers kind pairs entries ∧
      entries.length ≤ n ∧ (entries.length = n ↔ (pairs.map Prod.fst).Nodup) ∧
      (entries.length ≠ n → (map kind key value (.fixed n) limit).encode v =
        Outcome.fail (.lengthMismatch n entries.length)) ∧
      (entries.length = n → key.delimited = true → value.delimited = true → key.Reencodes →
        value.Reencodes →
        (∀ bs, (map kind key value (.fixed n) limit).image v = .ok bs → bs.length < addressSpace) →
        (map kind key value (.fixed n) limit).RoundTrips v) ∧
      (entries = pairs → key.ReencodesExactly → value.ReencodesExactly →
        (map kind key value (.fixed n) limit).encode v = .ok bytes) ∧
      (kind = .insertion → entries.length = n → entries = pairs) := by
  obtain ⟨size, pairs, log, hsize, rfl, rfl, walk⟩ := walk_of_decode h
  have gathers := Association.ofPairs_gathers kind pairs
  refine ⟨pairs, _, rfl, decode_pairArray_of_walk hsize walk, rfl, gathers, gathers.length_le,
    gathers.length_eq_iff, encode_map_of_length_ne, ?_, ?_, ?_⟩
  · intro whole keyClosed valueClosed hkey hvalue room
    have among := (Association.ofPairs_subperm kind pairs).subset
    have kept := Association.ofPairs_kept ordered pairs
    generalize Association.ofPairs kind pairs = entries at *
    rw [← whole] at sized room ⊢
    exact entries_roundTrip sized small keyClosed valueClosed hkey hvalue walk among kept room
  · intro same hkey hvalue
    rw [same]
    exact encode_pairs sized small hkey hvalue walk
  · rintro rfl whole
    exact Association.ofPairs_of_kept (List.pairwise_map.mp (gathers.length_eq_iff.mp whole))

theorem fixed_map_reencodes_samples :
    (map .insertion byte byte (.fixed 2) .all).encode (.map [(.int 1, .int 3)]) =
      Outcome.fail (.lengthMismatch 2 1) ∧
    (map .ascending byte byte (.fixed 2) .all).RoundTrips
      (.map [(.int 3, .int 2), (.int 5, .int 1)]) ∧
    (map .insertion byte memo (.fixed 2) .all).encode
        (.map [(.int 5, .absent), (.int 3, .present (.text "ab"))]) =
      .ok #[5, 0, 3, 1, 97, 98] := by
  refine ⟨?_, ?_, ?_⟩
  · obtain ⟨pairs, entries, same, -, -, -, -, -, refused, -⟩ :=
      fixed_map_reencodes .insertion byte byte 2 .all (by decide) (by decide) #[1, 2, 1, 3]
        (by decide) (.map [(.int 1, .int 3)]) rfl
    cases same
    exact refused (by decide)
  · obtain ⟨pairs, entries, same, -, -, -, -, -, -, returned, -⟩ :=
      fixed_map_reencodes .ascending byte byte 2 .all (by decide) (by decide) #[5, 1, 3, 2]
        (by decide) (.map [(.int 3, .int 2), (.int 5, .int 1)]) rfl
    cases same
    refine returned rfl rfl rfl byte_reencodes.reencodes byte_reencodes.reencodes fun bs h => ?_
    cases h
    decide
  · obtain ⟨pairs, entries, same, -, -, -, -, -, -, -, exactly, kept⟩ :=
      fixed_map_reencodes .insertion byte memo 2 .all (by decide) (by decide)
        #[5, 0, 3, 1, 97, 98] (by decide)
        (.map [(.int 5, .absent), (.int 3, .present (.text "ab"))]) rfl
    cases same
    exact exactly (kept rfl rfl) byte_reencodes memo_reencodes

/-- The key that comes again leaves one entry of two.  The other two pairs change places, and the
text that went on to the end of the input now takes the pair behind it for more of the text. -/
theorem fixed_map_lost :
    byte.Reencodes ∧ memo.Reencodes ∧
    ((map .insertion byte byte (.fixed 2) .all).decode #[1, 2, 1, 3]).outcome =
      .ok (.map [(.int 1, .int 3)]) ∧
    (map .insertion byte byte (.fixed 2) .all).encode (.map [(.int 1, .int 3)]) =
      Outcome.fail (.lengthMismatch 2 1) ∧
    ((map .ascending byte memo (.fixed 2) .all).decode #[5, 0, 3, 1, 97, 98]).outcome =
      .ok (.map [(.int 3, .present (.text "ab")), (.int 5, .absent)]) ∧
    (map .ascending byte memo (.fixed 2) .all).encode
        (.map [(.int 3, .present (.text "ab")), (.int 5, .absent)]) =
      .ok #[3, 1, 97, 98, 5, 0] ∧
    ((map .ascending byte memo (.fixed 2) .all).decode #[3, 1, 97, 98, 5, 0]).outcome =
      Outcome.fail (.endOfInput 1 6 0) :=
  ⟨byte_reencodes.reencodes, memo_reencodes.reencodes, rfl, rfl, rfl, rfl, rfl⟩

end Schema
end ByteSchema
