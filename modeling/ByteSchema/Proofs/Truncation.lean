import ByteSchema.Proofs.Failing
import ByteSchema.Proofs.FixedSizes
import ByteSchema.Proofs.SharedInput

/-!
# Cut and extended inputs

A read that would go on behind the end of a cut input asks for the bytes that are missing, and for
no more of them: up to the cut all is read as before, and the first step over it is a window or a
group that is not there.  Bytes behind the end of a value are never looked at.  So no accepted input
is the beginning of another one, which holds as long as nothing goes on to the end of the input.
-/
namespace ByteSchema

open Bytes Reading

variable {α β : Type}

/-- The input ended before what was asked for, and it would have been enough with no more than
`missing` bytes. -/
def Failure.Short (missing : Nat) (e : Failure) : Prop :=
  ∃ expected offset remaining, e = .error (.endOfInput expected offset remaining) ∧
    remaining < expected ∧ expected - remaining ≤ missing

def Outcome.Starved (x : Outcome α) (missing : Nat) : Prop := x.Fails (Failure.Short missing)

def Reading.Starved (x : Reading α) (missing : Nat) : Prop := x.Fails (Failure.Short missing)

theorem Reading.Starved.mono {x : Reading α} {missing more : Nat} (h : x.Starved missing)
    (le : missing ≤ more) : x.Starved more := by
  refine Fails.mono h ?_
  rintro e ⟨expected, offset, remaining, ended, less, enough⟩
  exact ⟨expected, offset, remaining, ended, less, Nat.le_trans enough le⟩

variable {front rest : Bytes} {offset stop : Nat} {log : List Event}

theorem Bytes.window_starved {len : Nat} (inside : offset ≤ front.size)
    (short : front.size < offset + len) :
    (front.window offset len).Starved (offset + len - front.size) :=
  ⟨_, window_of_lt short, len, offset, front.size - offset, rfl, by omega, by omega⟩

/-- One byte more is asked for wherever the groups are cut. -/
theorem Compact.readGroups_starved {left i low n : Nat}
    (h : readGroups (front ++ rest) offset left i low = .ok (n, stop))
    (inside : offset + i ≤ front.size) (short : front.size < stop) :
    (readGroups front offset left i low).Starved (stop - front.size) := by
  induction left generalizing i low with
  | zero => cases h
  | succ left ih =>
    obtain ⟨byte, hget, here, outcomes⟩ := readGroups_succ_eq_ok_iff.mp h
    by_cases edge : offset + i = front.size
    · have gone : front[offset + i]? = none := Array.getElem?_eq_none (by omega)
      rw [readGroups_of_none here gone]
      exact ⟨_, rfl, i + 1, offset, front.size - offset, rfl, by omega, by omega⟩
    · have still : front[offset + i]? = some byte := by
        rw [← hget, Array.getElem?_append_left (by omega)]
      rcases outcomes with ⟨-, -, -, -, rfl, -⟩ | ⟨more, h⟩
      · omega
      · rw [readGroups_of_more here still more]
        exact ih h (by omega)

theorem IntFormat.read_starved {format : IntFormat} {v : Int}
    (h : format.read (front ++ rest) offset = .ok (v, stop)) (inside : offset ≤ front.size)
    (short : front.size < stop) : (format.read front offset).Starved (stop - front.size) := by
  cases format with
  | word signed width order =>
    obtain ⟨_, _, h⟩ := Outcome.bind_eq_ok.mp h
    obtain ⟨_, hsum, h⟩ := Outcome.bind_eq_ok.mp h
    cases h
    obtain ⟨-, rfl⟩ := checkedAdd_eq_ok_iff.mp hsum
    exact (window_starved inside short).bind
  | compact =>
    obtain ⟨⟨n, _⟩, hgroups, h⟩ := Outcome.bind_eq_ok.mp h
    cases h
    have cut : (Compact.readGroups front offset 3 0 0).Starved (stop - front.size) :=
      Compact.readGroups_starved hgroups inside short
    exact cut.bind

theorem Floating.read_starved {precision : Precision} {order : ByteOrder} {x : Floating}
    (h : Floating.read precision order (front ++ rest) offset = .ok (x, stop))
    (inside : offset ≤ front.size) (short : front.size < stop) :
    (Floating.read precision order front offset).Starved (stop - front.size) := by
  obtain ⟨_, _, h⟩ := Outcome.bind_eq_ok.mp h
  obtain ⟨_, hsum, h⟩ := Outcome.bind_eq_ok.mp h
  cases h
  obtain ⟨-, rfl⟩ := checkedAdd_eq_ok_iff.mp hsum
  exact (window_starved inside short).bind

/-- The cut goes through the length or through the payload. -/
theorem Frame.read_starved {reader : Bytes → Nat → Reading (Nat × Nat)} {admits : Nat → Prop}
    {image : Nat → Outcome (List UInt8)} (counts : Frame.Counts reader admits image)
    {limit : Limit} {payload : Bytes → Nat → Reading (α × Nat)} {a : α}
    (cut : ∀ {n middle}, reader (front ++ rest) offset = ⟨[], .ok (n, middle)⟩ →
      front.size < middle → (reader front offset).Starved (middle - front.size))
    (h : Frame.read reader limit payload (front ++ rest) offset = ⟨log, .ok (a, stop)⟩)
    (short : front.size < stop) :
    (Frame.read reader limit payload front offset).Starved (stop - front.size) := by
  obtain ⟨outer, inner, middle, within, admitted, houter, first, second, small, -⟩ :=
    (Frame.read_eq_ok_iff counts).mp h
  have le := second.le
  have total := second.stop_eq
  have hcount := counts.mpr ⟨rfl, second.length_lt, admitted, outer, houter, first,
    Nat.lt_of_le_of_lt le small⟩
  by_cases before : middle ≤ front.size
  · have same := Frame.count_shares counts hcount (shares_front front rest before)
    have window := window_starved before (total ▸ short)
    rw [← total] at window
    exact .after same (.after_check within (.lift_bind window))
  · exact ((cut hcount (Nat.not_le.mp before)).mono (Nat.sub_le_sub_right le _)).bind

theorem Header.readCount_starved {header : Header} {n : Nat}
    (h : header.readCount (front ++ rest) offset = ⟨log, .ok (n, stop)⟩)
    (inside : offset ≤ front.size) (short : front.size < stop) :
    (header.readCount front offset).Starved (stop - front.size) := by
  induction header generalizing n stop log with
  | plain format =>
    have hread := (of_eq_ok.mp (readCount_eq_ok.mp h).1).1
    exact Fails.bind (x := Reading.of (format.read front offset))
      (IntFormat.read_starved hread inside short)
  | framed inner header limit hinner hheader =>
    have hread : Frame.read header.readCount limit inner.read (front ++ rest) offset =
        ⟨log, .ok ((n : Int), stop)⟩ := (readCount_eq_ok.mp h).1
    exact Fails.bind (Frame.read_starved header.readCount_counts
      (fun hcount past => hheader hcount past) hread short)

/-- Behind a count that is still there, or in front of it. -/
theorem Header.starved_behind {header : Header} {n middle : Nat} {f : Nat × Nat → Reading α}
    (h : header.readCount (front ++ rest) offset = ⟨log, .ok (n, middle)⟩)
    (inside : offset ≤ front.size) (le : middle ≤ stop)
    (behind : middle ≤ front.size → (f (n, middle)).Starved (stop - front.size)) :
    (header.readCount front offset >>= f).Starved (stop - front.size) := by
  by_cases before : middle ≤ front.size
  · exact .after (readCount_shares h (shares_front front rest before)) (behind before)
  · have cut := readCount_starved h inside (Nat.not_le.mp before)
    exact (cut.mono (Nat.sub_le_sub_right le _)).bind

theorem Slot.read_starved {slot : Slot} {payload : List UInt8} (bounded : slot.length ≠ .remainder)
    (h : slot.read (front ++ rest) offset = ⟨log, .ok (payload, stop)⟩)
    (inside : offset ≤ front.size) (short : front.size < stop) :
    (slot.read front offset).Starved (stop - front.size) := by
  cases hlength : slot.length with
  | fixed n =>
    obtain ⟨-, found, -, -, rfl⟩ := (Slot.read_fixed_eq_ok_iff hlength).mp h
    rw [Slot.read, hlength]
    exact .lift_bind (window_starved inside short)
  | counted header =>
    obtain ⟨-, len, middle, found, hheader, within, -, -, rfl⟩ :=
      (Slot.read_counted_eq_ok_iff hlength).mp h
    rw [Slot.read, hlength]
    refine Header.starved_behind hheader inside (Nat.le_add_right middle len) fun before => ?_
    exact .after_check within (.lift_bind (window_starved before short))
  | remainder => exact absurd hlength bounded

section Items

variable {item item' : Nat → Reading (α × Nat)} {items : List α} {edge : Nat}
  (stays : ∀ {l x a b}, item a = ⟨l, .ok (x, b)⟩ → a ≤ b)
  (same : ∀ {l x a b}, item a = ⟨l, .ok (x, b)⟩ → b ≤ edge → item' a = ⟨l, .ok (x, b)⟩)
  (cut : ∀ {l x a b}, item a = ⟨l, .ok (x, b)⟩ → a ≤ edge → edge < b →
    (item' a).Starved (b - edge))

include stays same cut in
/-- The first item over the edge starves. -/
theorem Reading.times_starved {step : Nat → Nat → Prop}
    (walk : Walk item step offset items stop log) (inside : offset ≤ edge) (short : edge < stop) :
    (times item' items.length offset).Starved (stop - edge) := by
  induction walk with
  | nil offset => omega
  | @cons offset middle stop a items l m head moves tail ih =>
    rw [List.length_cons, times_succ]
    have behind := tail.related Nat.le_refl (fun _ _ _ => Nat.le_trans) stays
    by_cases before : middle ≤ edge
    · exact .after (same head before) (ih before short).bind
    · have starved := cut head inside (Nat.not_le.mp before)
      exact (starved.mono (Nat.sub_le_sub_right behind _)).bind

end Items

theorem Items.read_starved {length : Length} {limit : Limit} {size : Outcome Size}
    {item item' : Nat → Reading (α × Nat)} {items : List α} (bounded : length ≠ .remainder)
    (stays : ∀ {l x a b}, item a = ⟨l, .ok (x, b)⟩ → a ≤ b)
    (same : ∀ {l x a b}, item a = ⟨l, .ok (x, b)⟩ → b ≤ front.size → item' a = ⟨l, .ok (x, b)⟩)
    (cut : ∀ {l x a b}, item a = ⟨l, .ok (x, b)⟩ → a ≤ front.size → front.size < b →
      (item' a).Starved (b - front.size))
    (h : Items.read length limit size item (front ++ rest) offset = ⟨log, .ok (items, stop)⟩)
    (inside : offset ≤ front.size) (short : front.size < stop) :
    (Items.read length limit size item' front offset).Starved (stop - front.size) := by
  cases length with
  | fixed n =>
    obtain ⟨⟨s, rfl⟩, rfl, walk⟩ := read_fixed_eq_ok_iff.mp h
    exact times_starved stays same cut walk inside short
  | counted header =>
    obtain ⟨⟨s, rfl⟩, start, hheader, within, walk⟩ := read_counted_eq_ok_iff.mp h
    have behind := walk.related Nat.le_refl (fun _ _ _ => Nat.le_trans) stays
    rw [read_counted]
    refine Header.starved_behind hheader inside behind fun before => ?_
    exact .after_check within (times_starved stays same cut walk before short)
  | remainder => exact absurd rfl bounded

namespace Schema

variable {s : Schema} {v : Value}

/-- Where a read is cut it asks for what is missing, and for no more. -/
def Starves (s : Schema) : Prop :=
  ∀ {front rest : Bytes} {offset stop : Nat} {v : Value} {log : List Event},
    s.read (front ++ rest) offset = ⟨log, .ok (v, stop)⟩ → offset ≤ front.size →
      front.size < stop → (s.read front offset).Starved (stop - front.size)

private theorem readFields_starved {fields : List (Field Schema)} {vs : List Value}
    (same : ∀ f ∈ fields, f.schema.ReadsShared) (cut : ∀ f ∈ fields, f.schema.Starves)
    (h : readFields fields (front ++ rest) offset = ⟨log, .ok (vs, stop)⟩)
    (inside : offset ≤ front.size) (short : front.size < stop) :
    (readFields fields front offset).Starved (stop - front.size) := by
  induction fields generalizing offset vs log with
  | nil =>
    cases h
    omega
  | cons f fields ih =>
    obtain ⟨w, middle, vs, l, m, head, tail, rfl, rfl⟩ := readFields_cons_eq_ok_iff.mp h
    rw [readFields]
    by_cases before : middle ≤ front.size
    · have first := same f List.mem_cons_self head (shares_front front rest before)
      have second := ih (fun g hg => same g (List.mem_cons_of_mem f hg))
        (fun g hg => cut g (List.mem_cons_of_mem f hg)) tail before
      refine .after (reportField_eq_ok_iff.mpr first) second.bind
    · have starved := cut f List.mem_cons_self head inside (Nat.not_le.mp before)
      have reported : (reportField f.name offset (f.schema.read front offset)).Starved
          (middle - front.size) := by
        rw [Reading.Starved, Reading.Fails, reportField_outcome]
        exact starved
      exact (reported.mono (Nat.sub_le_sub_right (readFields_le tail) _)).bind

private theorem readCase_starved {tag : Nat} {variants : List (Variant Schema)}
    (cut : ∀ w ∈ variants, w.schema.Starves)
    (h : readCase tag variants (front ++ rest) offset = ⟨log, .ok (v, stop)⟩)
    (inside : offset ≤ front.size) (short : front.size < stop) :
    (readCase tag variants front offset).Starved (stop - front.size) := by
  induction variants with
  | nil => exact absurd h readCase_nil_ne_ok
  | cons w variants ih =>
    rw [readCase]
    rcases readCase_cons_eq_ok_iff.mp h with ⟨same, payload, -, hread⟩ | ⟨differs, h⟩
    · rw [if_pos same]
      exact (cut w List.mem_cons_self hread inside short).bind
    · rw [if_neg differs]
      exact ih (fun u hu => cut u (List.mem_cons_of_mem w hu)) h

private theorem readPair_starved {key value : Schema} {e : Value × Value}
    (same : key.ReadsShared) (hkey : key.Starves) (hvalue : value.Starves)
    (h : readPair key value (front ++ rest) offset = ⟨log, .ok (e, stop)⟩)
    (inside : offset ≤ front.size) (short : front.size < stop) :
    (readPair key value front offset).Starved (stop - front.size) := by
  obtain ⟨middle, l, m, first, second, -⟩ := readPair_eq_ok_iff.mp h
  by_cases before : middle ≤ front.size
  · exact .after (same first (shares_front front rest before)) (hvalue second before short).bind
  · have starved := hkey first inside (Nat.not_le.mp before)
    exact (starved.mono (Nat.sub_le_sub_right (read_le second) _)).bind

private theorem readBool_starved {header : Header} {missing : Nat}
    (h : (header.readCount front offset).Starved missing) :
    (readBool header front offset).Starved missing := by
  unfold readBool
  cases hcount : header.readCount front offset with
  | mk events outcome =>
    rw [hcount] at h
    obtain ⟨_, rfl, short⟩ := h
    obtain ⟨expected, start, remaining, rfl, bounds⟩ := short
    exact ⟨_, rfl, expected, start, remaining, rfl, bounds⟩

theorem read_starved (closed : s.delimited = true) : s.Starves := by
  intro front rest offset stop v log h inside short
  induction s generalizing front rest offset stop v log with
  | int format =>
    obtain ⟨-, x, rfl, found⟩ := read_int_eq_ok_iff.mp h
    exact .lift_bind (IntFormat.read_starved (IntFormat.read_eq_ok_iff.mpr found) inside short)
  | float precision order =>
    obtain ⟨-, x, rfl, found⟩ := read_float_eq_ok_iff.mp h
    exact .lift_bind (Floating.read_starved (Floating.read_eq_ok_iff.mpr found) inside short)
  | bool header =>
    obtain ⟨b, rfl, hcount⟩ := read_bool_eq_ok_iff.mp h
    exact readBool_starved (Header.readCount_starved hcount inside short)
  | slot content shape =>
    obtain ⟨payload, hread, -⟩ := read_slot_eq_ok_iff.mp h
    exact (Slot.read_starved (bne_iff_ne.mp closed) hread inside short).bind
  | constant expected =>
    obtain ⟨-, rfl, spans, -⟩ := read_constant_eq_ok_iff.mp h
    have total := spans.stop_eq
    subst total
    exact .lift_bind (window_starved inside short)
  | record fields each =>
    obtain ⟨vs, rfl, hread⟩ := read_record_eq_ok_iff.mp h
    have same : ∀ f ∈ fields, f.schema.ReadsShared := fun f hf =>
      read_shares (field_delimited closed hf)
    have cut : ∀ f ∈ fields, f.schema.Starves := by
      intro f hf front rest offset stop v log
      exact each f hf (field_delimited closed hf)
    exact (readFields_starved same cut hread inside short).bind
  | array item length limit hitem =>
    obtain ⟨bounded, below⟩ := array_delimited closed
    obtain ⟨vs, rfl, hread⟩ := read_array_eq_ok_iff.mp h
    refine (Items.read_starved bounded read_le ?_ (hitem below) hread inside short).bind
    exact fun hone before => read_shares below hone (shares_front front rest before)
  | map kind key value length limit hkey hvalue =>
    obtain ⟨bounded, keys, values⟩ := map_delimited closed
    obtain ⟨pairs, entries, l, m, rfl, hread, -, -⟩ := read_map_eq_ok_iff.mp h
    refine (Items.read_starved bounded readPair_le ?_ ?_ hread inside short).bind
    · intro l e a b hone before
      have shares := shares_front front rest before
      exact readPair_agrees (read_agrees ⟨shares, .inl keys⟩) (read_agrees ⟨shares, .inl values⟩)
        hone (Nat.le_refl _)
    · intro l e a b hone
      refine readPair_starved (read_shares keys) ?_ ?_ hone
      · intro front rest offset stop v log
        exact hkey keys
      · intro front rest offset stop v log
        exact hvalue values
  | option header inner hinner =>
    rcases read_option_eq_ok_iff.mp h with ⟨rfl, hcount⟩ | ⟨w, middle, rfl, hcount, hread⟩
    · exact (Header.readCount_starved hcount inside short).bind
    · exact Header.starved_behind hcount inside (read_le hread) fun before =>
        (hinner closed hread before short).bind
  | union header variants each =>
    obtain ⟨tag, middle, hcount, hcase⟩ := read_union_eq_ok_iff.mp h
    have cut : ∀ w ∈ variants, w.schema.Starves := by
      intro w hw front rest offset stop v log
      exact each w hw (variant_delimited closed hw)
    exact Header.starved_behind hcount inside (readCase_le hcase) fun before =>
      readCase_starved cut hcase before short
  | framed inner header limit hinner =>
    exact Frame.read_starved header.readCount_counts
      (fun hcount past => Header.readCount_starved hcount inside past) h short
  | converted conversion inner hinner =>
    obtain ⟨w, rfl, hread⟩ := read_converted_eq_ok_iff.mp h
    exact (hinner closed hread inside short).bind

theorem decode_starved {front rest : Bytes} (closed : s.delimited = true)
    (h : s.decode (front ++ rest) = ⟨log, .ok v⟩) (cut : rest ≠ #[]) :
    (s.decode front).Starved rest.size := by
  obtain ⟨size, sized, checked, hread⟩ := read_of_decode h
  have some : 0 < rest.size := Array.size_pos_iff.mpr cut
  rw [decode, sized]
  refine .after rfl ?_
  cases size with
  | fixed n =>
    have total := checkSize_fixed_eq_ok_iff.mp checked
    rw [Array.size_append] at total
    refine .lift_bind ⟨_, if_pos (by omega), n, 0, front.size, rfl, by omega, by omega⟩
  | varying =>
    rw [Array.size_append] at hread
    have starved := read_starved closed hread (Nat.zero_le _) (by omega)
    rw [Nat.add_sub_cancel_left] at starved
    exact .after rfl starved.bind

theorem decode_extended {bytes more : Bytes} (closed : s.delimited = true)
    (h : s.decode bytes = ⟨log, .ok v⟩) (extended : more ≠ #[]) :
    (s.decode (bytes ++ more)).outcome = .error (.error (.extraData more.size)) := by
  obtain ⟨size, sized, checked, hread⟩ := read_of_decode h
  have some : 0 < more.size := Array.size_pos_iff.mpr extended
  have total : (bytes ++ more).size = bytes.size + more.size := Array.size_append
  have excess : (bytes ++ more).size - bytes.size = more.size := by omega
  rw [decode, sized]
  cases size with
  | fixed n =>
    have exact := checkSize_fixed_eq_ok_iff.mp checked
    have refused : checkSize (.fixed n) (bytes ++ more) = Outcome.fail (.extraData more.size) := by
      rw [checkSize, if_neg (by omega), if_pos (by omega), ← exact, excess]
    change ((liftM (checkSize (.fixed n) (bytes ++ more)) : Reading Unit) >>= _).outcome = _
    rw [refused]
    rfl
  | varying =>
    have same := read_shares closed hread (shares_append bytes more bytes.size)
    change (s.read (bytes ++ more) 0 >>= _).outcome = _
    rw [same]
    simp only [ok_bind]
    rw [if_pos (by omega), excess]
    rfl

/-- An accepted input is refused as soon as it is cut, with a need for bytes that is not more than
what was cut off, and as soon as it is extended, with the number of bytes that were put behind.  So
no accepted input begins with another one. -/
theorem decode_prefix_free (s : Schema) (closed : s.delimited = true) (bytes : Bytes) (v : Value)
    (h : (s.decode bytes).outcome = .ok v) :
    (∀ front rest : Bytes, bytes = front ++ rest → rest ≠ #[] →
      ∃ expected offset remaining,
        (s.decode front).outcome = .error (.error (.endOfInput expected offset remaining)) ∧
        remaining < expected ∧ expected - remaining ≤ bytes.size - front.size) ∧
    (∀ more : Bytes, more ≠ #[] →
      (s.decode (bytes ++ more)).outcome = .error (.error (.extraData more.size))) ∧
    ∀ (other : Bytes) (w : Value), (s.decode other).outcome = .ok w →
      other.toList <+: bytes.toList → other = bytes := by
  obtain ⟨log, hdecode⟩ := outcome_eq_ok.mp h
  refine ⟨?_, fun more extended => decode_extended closed hdecode extended, ?_⟩
  · rintro front rest rfl cut
    rw [Array.size_append, Nat.add_sub_cancel_left]
    obtain ⟨_, refused, expected, offset, remaining, rfl, bounds⟩ :=
      decode_starved closed hdecode cut
    exact ⟨expected, offset, remaining, refused, bounds⟩
  · rintro other w hother ⟨rest, same⟩
    obtain ⟨log', hdecode'⟩ := outcome_eq_ok.mp hother
    have whole : other ++ rest.toArray = bytes := by
      rw [← Array.toList_inj, Array.toList_append, same]
    by_contra differs
    have extended : rest.toArray ≠ #[] := by
      rintro none
      rw [none, Array.append_empty] at whole
      exact differs whole
    have refused := decode_extended closed hdecode' extended
    rw [whole, h] at refused
    cases refused

/-- Some bytes, a list of words and a packet. -/
def parcel : Schema :=
  tuple
    [slot .raw ⟨.counted (.plain .compact), 0, false, .all⟩,
      array (int (.word false .two .little)) (.counted (.plain (.word false .one .big))) .all,
      framed packet (.plain .compact) .all]

def parcelValue : Value :=
  .list [.bytes [104, 105], .list [.int 7], packetValue]

def parcelBytes : Bytes :=
  #[2, 104, 105, 1, 7, 0, 22, 1, 20, 7, 172, 2, 1, 0, 2, 10, 255, 0, 254, 255, 0, 0, 0, 5, 0, 0, 1,
    128, 1]

set_option maxRecDepth 4000 in
theorem decode_prefix_free_parcel :
    parcel.delimited = true ∧ (parcel.decode parcelBytes).outcome = .ok parcelValue ∧
    (∃ expected offset remaining,
      (parcel.decode #[2, 104, 105, 1, 7]).outcome =
        .error (.error (.endOfInput expected offset remaining)) ∧
      remaining < expected ∧ expected - remaining ≤ 24) ∧
    (parcel.decode (parcelBytes ++ #[0, 0])).outcome = .error (.error (.extraData 2)) ∧
    ∀ w, (parcel.decode #[2, 104, 105, 1, 7, 0, 0]).outcome ≠ .ok w := by
  have accepted : (parcel.decode parcelBytes).outcome = .ok parcelValue := rfl
  obtain ⟨cut, extended, -⟩ := decode_prefix_free parcel rfl parcelBytes parcelValue accepted
  refine ⟨rfl, accepted, ?_, extended #[0, 0] (by decide), ?_⟩
  · exact cut #[2, 104, 105, 1, 7]
      #[0, 22, 1, 20, 7, 172, 2, 1, 0, 2, 10, 255, 0, 254, 255, 0, 0, 0, 5, 0, 0, 1, 128, 1] rfl
      (by decide)
  · intro w h
    cases h

end Schema
end ByteSchema
