import ByteSchema.Proofs.CanonicalBytes
import ByteSchema.Proofs.FittingImages
import ByteSchema.Proofs.RoundTrips

/-!
# Decoding and encoding again

A decoded value is canonical, whatever bytes it comes from: of the pairs of a map the last one of
each key is left, and the counts and lengths around it are those of what is left.  So encoding it
gives bytes that are no longer and stand for the same value.  The schema has to let the smaller
numbers pass where it lets the larger ones, to tell its variants apart, and to keep its maps in an
order of their own.
-/
namespace ByteSchema.Schema

open Bytes Reading

/-- What a schema has to do so that dropped pairs change nothing else. -/
def Normalising : Schema → Prop
  | array _ length limit => length.DownwardClosed limit
  | map kind _ _ length limit =>
    kind ≠ .unordered ∧ (∀ n, length ≠ .fixed n) ∧ length.DownwardClosed limit
  | union _ variants => (variants.map (·.label)).Nodup
  | framed _ header limit => header.DownwardClosed ∧ limit.DownwardClosed
  | converted conversion inner =>
    ∀ bytes offset r stop, (inner.read bytes offset).outcome = .ok (r, stop) →
      conversion.store (conversion.load r) = r
  | _ => True

/-- What is read is canonical and fits where it was read. -/
def Settles (s : Schema) : Prop :=
  ∀ {bytes : Bytes} {offset stop : Nat} {v : Value} {log : List Event},
    s.read bytes offset = ⟨log, .ok (v, stop)⟩ → s.Canonical v ∧ Fits (s.image v) offset stop

variable {s : Schema} {bytes : Bytes} {offset stop : Nat} {v : Value} {log : List Event}

private theorem settled_count {header : Header} {n : Nat}
    (h : header.readCount bytes offset = ⟨log, .ok (n, stop)⟩) :
    n < addressSpace ∧ header.Admits n ∧ Fits (header.image n) offset stop := by
  obtain ⟨-, small, admits, bs, himage, spans, -⟩ := header.readCount_counts.mp h
  exact ⟨small, admits, .of_spans himage spans⟩

private theorem settled_fields {fields : List (Field Schema)} {vs : List Value}
    (each : ∀ f ∈ fields, f.schema.Settles)
    (h : readFields fields bytes offset = ⟨log, .ok (vs, stop)⟩) :
    CanonicalFields fields vs ∧ Fits (imageFields fields vs) offset stop := by
  induction fields generalizing offset vs log with
  | nil =>
    cases h
    exact ⟨trivial, .nil _⟩
  | cons f fields ih =>
    obtain ⟨w, middle, rest, l, m, head, tail, rfl, rfl⟩ := readFields_cons_eq_ok_iff.mp h
    obtain ⟨canonical, fits⟩ := each f List.mem_cons_self head
    obtain ⟨canonical', fits'⟩ := ih (fun g hg => each g (List.mem_cons_of_mem f hg)) tail
    exact ⟨⟨canonical, canonical'⟩, fits.append fits'⟩

private theorem settled_pair {key value : Schema} {e : Value × Value} (hkey : key.Settles)
    (hvalue : value.Settles) (h : readPair key value bytes offset = ⟨log, .ok (e, stop)⟩) :
    (key.Canonical e.1 ∧ value.Canonical e.2) ∧
      Fits (imagePair key value e) offset stop := by
  obtain ⟨middle, l, m, first, second, rfl⟩ := readPair_eq_ok_iff.mp h
  obtain ⟨canonical, fits⟩ := hkey first
  obtain ⟨canonical', fits'⟩ := hvalue second
  exact ⟨⟨canonical, canonical'⟩, fits.append fits'⟩

/-- Where no label stands twice, each variant is the one that its label stands for. -/
private theorem canonicalCase_of_mem {header : Header} {payload : Value}
    {variants : List (Variant Schema)} {w : Variant Schema}
    (distinct : (variants.map (·.label)).Nodup) (hw : w ∈ variants)
    (canonical : w.tag < addressSpace ∧ header.Admits w.tag ∧ w.schema.Canonical payload) :
    CanonicalCase header w.label payload variants := by
  induction variants with
  | nil => cases hw
  | cons u variants ih =>
    obtain ⟨fresh, distinct⟩ := List.nodup_cons.mp distinct
    rw [CanonicalCase]
    cases hw with
    | head =>
      rw [if_pos rfl]
      exact canonical
    | tail _ hw =>
      have other : u.label ≠ w.label := fun same =>
        fresh (List.mem_map.mpr ⟨w, hw, same.symm⟩)
      rw [if_neg other]
      exact ih distinct hw

/-- The entries of a map are some of the pairs that were read. -/
private theorem remnant_of_gather {kind : MapKind} {length : Length}
    {pairs entries : List (Value × Value)} (uncertain : ∀ n, length ≠ .fixed n)
    (h : Association.gather kind pairs = ⟨log, .ok entries⟩) :
    entries = Association.ofPairs kind pairs ∧ Items.Remnant length pairs entries := by
  have answer := Association.gather_outcome kind pairs
  rw [h] at answer
  cases answer
  refine ⟨rfl, Association.ofPairs_subperm kind pairs, Association.ofPairs_ne_nil kind, ?_⟩
  exact fun n fixed => absurd fixed (uncertain n)

/-- By induction over the schema.  Of a map less may be left than was read, which changes its count
and the lengths of all frames around it. -/
theorem settles (sized : s.Everywhere Sized) (normalising : s.Everywhere Normalising) :
    s.Settles := by
  intro bytes offset stop v log h
  induction s generalizing bytes offset stop v log with
  | int format =>
    obtain ⟨-, x, rfl, bs, himage, spans, -⟩ := read_int_eq_ok_iff.mp h
    exact ⟨trivial, .of_spans himage spans⟩
  | float precision order =>
    obtain ⟨-, x, rfl, width, bs, himage, spans, -⟩ := read_float_eq_ok_iff.mp h
    exact ⟨⟨x, rfl, width⟩, .of_spans himage spans⟩
  | bool header =>
    obtain ⟨b, rfl, hcount⟩ := read_bool_eq_ok_iff.mp h
    obtain ⟨-, admits, fits⟩ := settled_count hcount
    exact ⟨⟨b, rfl, admits⟩, fits⟩
  | slot content shape =>
    obtain ⟨payload, hread, hvalue⟩ := read_slot_eq_ok_iff.mp h
    obtain ⟨-, bs, himage, spans⟩ := Slot.image_of_read hread
    have back := Content.toBytes_of_ofBytes hvalue
    refine ⟨⟨Content.small_of_ofBytes hvalue, ?_⟩, .of_spans ?_ spans⟩
    · intro payload' hpayload
      cases back.symm.trans hpayload
      exact Slot.admits_of_read hread
    · exact Outcome.bind_eq_ok.mpr ⟨payload, back, himage⟩
  | constant expected =>
    obtain ⟨-, rfl, spans, -⟩ := read_constant_eq_ok_iff.mp h
    exact ⟨trivial, .of_spans rfl spans⟩
  | record fields each =>
    obtain ⟨vs, rfl, hread⟩ := read_record_eq_ok_iff.mp h
    have parts : ∀ f ∈ fields, f.schema.Settles := by
      intro f hf bytes offset stop v log
      exact each f hf (sized.field hf) (normalising.field hf)
    obtain ⟨canonical, fits⟩ := settled_fields parts hread
    exact ⟨⟨vs, rfl, canonical⟩, fits⟩
  | array item length limit hitem =>
    obtain ⟨vs, rfl, hread⟩ := read_array_eq_ok_iff.mp h
    have inside : item.Everywhere Sized := sized.part List.mem_cons_self
    have items : item.Settles := by
      intro bytes offset stop v log
      exact hitem inside (normalising.part List.mem_cons_self)
    obtain ⟨count, start, -, -, walk⟩ := Items.walk_from_count hread
    have canonical : ∀ w ∈ vs, item.Canonical w := walk.forall_mem fun head _ => (items head).1
    obtain ⟨readable, fits⟩ := Items.fits_of_read normalising.here hread (.refl length vs)
      (fun head => (items head).2) (encodeSize_of_image inside)
    exact ⟨⟨vs, rfl, readable, canonical⟩, fits⟩
  | map kind key value length limit hkey hvalue =>
    obtain ⟨pairs, entries, l, m, rfl, hread, hgather, rfl⟩ := read_map_eq_ok_iff.mp h
    obtain ⟨keysSized, valuesSized⟩ := sized.pair
    obtain ⟨keysNormalising, valuesNormalising⟩ := normalising.pair
    have keys : key.Settles := by
      intro bytes offset stop v log
      exact hkey keysSized keysNormalising
    have values : value.Settles := by
      intro bytes offset stop v log
      exact hvalue valuesSized valuesNormalising
    obtain ⟨ordered, uncertain, closed⟩ := normalising.here
    obtain ⟨rfl, remnant⟩ := remnant_of_gather uncertain hgather
    obtain ⟨count, start, -, -, walk⟩ := Items.walk_from_count hread
    have canonical : ∀ e ∈ pairs, key.Canonical e.1 ∧ value.Canonical e.2 :=
      walk.forall_mem fun head _ => (settled_pair keys values head).1
    obtain ⟨readable, fits⟩ := Items.fits_of_read closed hread remnant
      (fun head => (settled_pair keys values head).2) (encodeSize_of_pair keysSized valuesSized)
    refine ⟨⟨_, rfl, readable, Association.ofPairs_kept ordered pairs, fun e he => ?_⟩, fits⟩
    exact canonical e (remnant.among.subset he)
  | option header inner hinner =>
    rcases read_option_eq_ok_iff.mp h with ⟨rfl, hcount⟩ | ⟨w, middle, rfl, hcount, hread⟩
    · obtain ⟨-, admits, fits⟩ := settled_count hcount
      exact ⟨.inl ⟨rfl, admits⟩, fits⟩
    · obtain ⟨-, admits, fits⟩ := settled_count hcount
      obtain ⟨canonical, fits'⟩ := hinner (sized.part List.mem_cons_self)
        (normalising.part List.mem_cons_self) hread
      exact ⟨.inr ⟨w, rfl, admits, canonical⟩, fits.append fits'⟩
  | union header variants each =>
    obtain ⟨tag, middle, hcount, hcase⟩ := read_union_eq_ok_iff.mp h
    obtain ⟨w, hw, rfl, payload, rfl, hread⟩ := readCase_eq_ok hcase
    obtain ⟨small, admits, fits⟩ := settled_count hcount
    obtain ⟨canonical, fits'⟩ := each w hw (sized.variant hw) (normalising.variant hw) hread
    have distinct : (variants.map (·.label)).Nodup := normalising.here
    refine ⟨⟨w.label, payload, rfl, ?_⟩, ?_⟩
    · exact canonicalCase_of_mem distinct hw ⟨small, admits, canonical⟩
    · obtain ⟨bs, happend, inside⟩ := fits.append fits'
      obtain ⟨first, second, hfirst, hsecond, rfl⟩ := append_eq_ok_iff.mp happend
      exact ⟨first ++ second, imageCase_of_mem distinct hw hfirst hsecond, inside⟩
  | framed inner header limit hinner =>
    obtain ⟨outer, payload, middle, within, admits, houter, first, second, -, hread⟩ :=
      read_framed_eq_ok_iff.mp h
    obtain ⟨closed, closedLimit⟩ := normalising.here
    have inside : inner.Everywhere Sized := sized.part List.mem_cons_self
    obtain ⟨canonical, bs, himage, fits⟩ :=
      hinner inside (normalising.part List.mem_cons_self) hread
    have shorter : bs.length ≤ payload.length := by simpa using fits.le
    obtain ⟨admits', outer', houter', some, front⟩ :=
      Header.fits_of_le closed houter first admits shorter
    refine ⟨⟨canonical, fun len hlen => ?_⟩, outer' ++ bs,
      Frame.image_eq_ok_iff.mpr ⟨bs, outer', himage, houter', rfl⟩, front.append some ?_ ?_⟩
    · rw [encodeSize_of_image inside himage fits.length_lt] at hlen
      cases hlen
      exact ⟨closedLimit _ _ shorter second.length_lt within, admits'⟩
    · have := second.stop_eq
      omega
    · have := second.room
      omega
  | converted conversion inner hinner =>
    obtain ⟨w, rfl, hread⟩ := read_converted_eq_ok_iff.mp h
    have undone : conversion.store (conversion.load w) = w :=
      normalising.here bytes offset w stop (outcome_eq_ok.mpr ⟨log, hread⟩)
    obtain ⟨canonical, fits⟩ := hinner (sized.part List.mem_cons_self)
      (normalising.part List.mem_cons_self) hread
    refine ⟨⟨?_, ?_⟩, ?_⟩
    · rw [undone]
    · rwa [undone]
    · rwa [image, undone]

/-- Decoding and encoding again gives bytes that are no longer, decode to the same value, and are
encoded from it. -/
theorem decode_normalises (s : Schema) (valid : s.validate = .ok ()) (sized : s.Everywhere Sized)
    (tail : s.TailOnly) (normalising : s.Everywhere Normalising) (bytes : Bytes) (v : Value)
    (h : (s.decode bytes).outcome = .ok v) :
    ∃ bytes', s.encode v = .ok bytes' ∧ bytes'.size ≤ bytes.size ∧
      s.decode bytes' = ⟨[], .ok v⟩ ∧
      (do s.encode (← (s.decode bytes').outcome)) = .ok bytes' := by
  obtain ⟨log, hdecode⟩ := outcome_eq_ok.mp h
  obtain ⟨size, hsize, -, hread⟩ := read_of_decode hdecode
  obtain ⟨canonical, bs, himage, fits⟩ := settles sized normalising hread
  have encoded : s.encode v = .ok bs.toArray :=
    (encode_eq_ok_iff sized).mpr ⟨bs, himage, fits.length_lt, rfl⟩
  have whole := spans_whole bs.toArray fits.length_lt
  have decoded : s.decode bs.toArray = ⟨[], .ok v⟩ :=
    decode_of_read hsize
      (readsBack valid sized tail canonical himage whole fits.length_lt fun _ => rfl)
  refine ⟨bs.toArray, encoded, ?_, decoded, ?_⟩
  · simpa using fits.le
  · rw [decoded]
    exact encoded

/-- A frame around a map that may be read with pairs to drop, and an array behind it. -/
def ledger : Schema :=
  framed
    (struct
      [("owners", map .ascending (int (.word false .one .big)) (converted (.raisedBy 1) (int .compact))
          (.counted (.plain .compact)) ⟨.unbounded, .included 9⟩),
        ("moves", array
          (union (.plain (.word false .one .big)) [⟨0, "close", unit⟩, ⟨1, "open", int .compact⟩])
          .remainder .all)])
    (.framed (.plain .compact) (.plain (.word false .one .big)) .all) ⟨.unbounded, .excluded 100⟩

theorem ledger_normalising : ledger.Everywhere Normalising := by
  have all : Limit.all.DownwardClosed := fun _ _ _ _ _ => rfl
  have few : Limit.DownwardClosed ⟨.unbounded, .included 9⟩ := by
    intro m n le _ within
    simp only [Limit.contains, Bound.isBelow, Bound.isAbove, Bool.true_and, decide_eq_true_eq] at *
    omega
  have short : Limit.DownwardClosed ⟨.unbounded, .excluded 100⟩ := by
    intro m n le _ within
    simp only [Limit.contains, Bound.isBelow, Bound.isAbove, Bool.true_and, decide_eq_true_eq] at *
    omega
  simp [Everywhere, ledger, struct, unit, nodes, fieldNodes, variantNodes, Normalising,
    Length.DownwardClosed, Header.DownwardClosed, raisedBy_undone, all, few, short]

set_option maxRecDepth 4000 in
theorem decode_normalises_ledger :
    ledger.validate = .ok () ∧ ledger.Everywhere Sized ∧ ledger.TailOnly ∧
      ledger.Everywhere Normalising ∧
      ∃ v, (ledger.decode #[1, 10, 3, 2, 5, 1, 6, 2, 7, 1, 8, 0]).outcome = .ok v ∧
        ledger.encode v = .ok #[1, 8, 2, 1, 6, 2, 7, 1, 8, 0] ∧
        ledger.decode #[1, 8, 2, 1, 6, 2, 7, 1, 8, 0] = ⟨[], .ok v⟩ := by
  have valid : ledger.validate = .ok () := rfl
  have sized : ledger.Everywhere Sized := by decide
  have tail : ledger.TailOnly := by decide
  have decoded : (ledger.decode #[1, 10, 3, 2, 5, 1, 6, 2, 7, 1, 8, 0]).outcome =
      .ok (.list [.map [(.int 1, .int 5), (.int 2, .int 6)],
        .list [.case "open" (.int 8), .case "close" .unit]]) := rfl
  obtain ⟨bytes', encoded, -, again, -⟩ :=
    decode_normalises ledger valid sized tail ledger_normalising _ _ decoded
  have shorter : bytes' = #[1, 8, 2, 1, 6, 2, 7, 1, 8, 0] :=
    Except.ok.inj (encoded.symm.trans rfl)
  subst shorter
  exact ⟨valid, sized, tail, ledger_normalising, _, decoded, encoded, again⟩

end ByteSchema.Schema
