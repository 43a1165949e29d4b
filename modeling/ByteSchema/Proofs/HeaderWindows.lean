import ByteSchema.Proofs.ItemCounts
import ByteSchema.Proofs.OwnBytes
import ByteSchema.Proofs.Splicing

/-!
# The windows that counts are read from

A header reads a count from just the bytes that it writes for it, as long as no limit inside says
otherwise: what stands behind them does not matter, and there is one of them at least.  A header
holds an integer like any other schema, so what is known of schemas is known of integers that are no
counts as well.
-/
namespace ByteSchema

open Bytes Reading

namespace Header

/-- Each limit inside lets all lengths pass. -/
def Unlimited : Header → Prop
  | plain _ => True
  | framed inner header limit =>
    (∀ n < addressSpace, limit.contains n = true) ∧ inner.Unlimited ∧ header.Unlimited

private theorem encodeSize_lt {header : Header} {n len : Nat}
    (h : header.encodeSize n = .ok len) : len < addressSpace := by
  cases header with
  | plain format =>
    cases format with
    | word signed width order =>
      cases h
      cases width <;> decide
    | compact =>
      obtain ⟨_, range, h⟩ := Outcome.bind_eq_ok.mp h
      cases h
      have few : n ≤ 65535 := Int.ofNat_le.mp (IntFormat.checkRange_eq_ok_iff.mp range).2
      have short : Compact.size n ≤ Compact.size 65535 := Compact.size_mono few
      exact Nat.lt_of_le_of_lt short (by decide)
  | framed inner header limit =>
    obtain ⟨_, -, h⟩ := Outcome.bind_eq_ok.mp h
    obtain ⟨_, -, h⟩ := Outcome.bind_eq_ok.mp h
    obtain ⟨small, rfl⟩ := checkedAdd_eq_ok_iff.mp h
    exact small

theorem admits_of_unlimited {header : Header} (unlimited : header.Unlimited) (n : Nat) :
    header.Admits n := by
  induction header generalizing n with
  | plain format => trivial
  | framed inner header limit hinner hheader =>
    obtain ⟨all, innerUnlimited, headerUnlimited⟩ := unlimited
    exact ⟨hinner innerUnlimited n, fun len hlen =>
      ⟨all len (encodeSize_lt hlen), hheader headerUnlimited len⟩⟩

/-- The schema of the integers that the header holds. -/
def schema : Header → Schema
  | plain format => .int format
  | framed inner header limit => .framed inner.schema header limit

variable {header : Header} {bytes other : Bytes} {offset stop n : Nat} {v : Int} {log : List Event}

theorem schema_read_eq_ok_iff {w : Value} :
    header.schema.read bytes offset = ⟨log, .ok (w, stop)⟩ ↔
      ∃ v, w = .int v ∧ header.read bytes offset = ⟨log, .ok (v, stop)⟩ := by
  induction header generalizing bytes offset stop w log with
  | plain format =>
    rw [schema, Schema.read_int_eq_ok_iff]
    simp only [read, of_eq_ok, IntFormat.read_eq_ok_iff]
    constructor
    · rintro ⟨rfl, x, rfl, found⟩
      exact ⟨x, rfl, found, rfl⟩
    · rintro ⟨x, rfl, found, rfl⟩
      exact ⟨rfl, x, rfl, found⟩
  | framed inner header limit hinner _ =>
    change (Schema.framed inner.schema header limit).read bytes offset = _ ↔
      ∃ v, w = .int v ∧ Frame.read header.readCount limit inner.read bytes offset = _
    simp only [Schema.read_framed_eq_ok_iff, Frame.read_eq_ok_iff header.readCount_counts, hinner]
    constructor
    · rintro ⟨outer, payload, middle, within, admits, houter, first, second, small, x, rfl, hread⟩
      exact ⟨x, rfl, outer, payload, middle, within, admits, houter, first, second, small, hread⟩
    · rintro ⟨x, rfl, outer, payload, middle, within, admits, houter, first, second, small, hread⟩
      exact ⟨outer, payload, middle, within, admits, houter, first, second, small, x, rfl, hread⟩

private theorem schema_read (h : header.read bytes offset = ⟨log, .ok (v, stop)⟩) :
    header.schema.read bytes offset = ⟨log, .ok (.int v, stop)⟩ :=
  schema_read_eq_ok_iff.mpr ⟨v, rfl, h⟩

private theorem schema_delimited (header : Header) : header.schema.delimited = true := by
  cases header <;> rfl

private theorem schema_nullable (header : Header) : header.schema.nullable = false := by
  cases header <;> rfl

theorem read_shares (h : header.read bytes offset = ⟨log, .ok (v, stop)⟩)
    (shares : Shares bytes other stop) : header.read other offset = ⟨log, .ok (v, stop)⟩ := by
  have same := Schema.read_shares header.schema_delimited (schema_read h) shares
  obtain ⟨_, heq, hread⟩ := schema_read_eq_ok_iff.mp same
  cases heq
  exact hread

theorem read_lt (h : header.read bytes offset = ⟨log, .ok (v, stop)⟩) :
    offset < stop ∧ stop ≤ bytes.size := by
  have forward := Schema.read_lt header.schema_nullable (schema_read h)
  rcases Schema.read_stays (schema_read h) with rfl | ⟨-, inside, -⟩
  · exact absurd forward (Nat.lt_irrefl _)
  · exact ⟨forward, inside⟩

/-- An integer that is no count is refused as such. -/
theorem readCount_of_read (h : header.read bytes offset = ⟨log, .ok (v, stop)⟩)
    (outside : v < 0 ∨ addressSpace ≤ v) :
    (header.readCount bytes offset).outcome =
      Outcome.fail (.intOutOfRange "usize" v 0 (addressSpace - 1)) := by
  have refused : toCount v = Outcome.fail (.intOutOfRange "usize" v 0 (addressSpace - 1)) :=
    if_neg (by omega)
  rw [readCount, h]
  change ((liftM (toCount v) : Reading Nat) >>= fun n => pure (n, stop)).outcome = _
  rw [refused]
  rfl

theorem readCount_eq_ok_iff_encode (unlimited : header.Unlimited)
    (small : bytes.size < addressSpace) :
    (header.readCount bytes offset).outcome = .ok (n, stop) ↔
      header.encode n = .ok (bytes.extract offset stop) ∧ n < addressSpace ∧ offset < stop ∧
        stop ≤ bytes.size := by
  constructor
  · intro h
    obtain ⟨log, hcount⟩ := outcome_eq_ok.mp h
    have forward := readCount_lt hcount
    obtain ⟨-, fits, -, bs, himage, spans, -⟩ := header.readCount_counts.mp hcount
    have found : bytes.extract offset stop = bs.toArray := Array.toList_inj.mp spans.content
    rw [found]
    exact ⟨encode_of_image himage spans.length_lt, fits, forward, spans.inside⟩
  · rintro ⟨encoded, fits, forward, inside⟩
    obtain ⟨bs, himage, -, found⟩ := ((header.write_renders n).encode_eq_ok_iff
      fun _ h small => encodeSize_of_image h small).mp encoded
    have room : stop < addressSpace := Nat.lt_of_le_of_lt inside small
    have spans := Spans.extract (Nat.le_of_lt forward) inside (.inr room)
    rw [found] at spans
    have hcount := header.readCount_counts.mpr
      ⟨rfl, fits, admits_of_unlimited unlimited n, bs, himage, spans, room⟩
    rw [hcount]

end Header

theorem Bytes.shares_of_extract_eq {bytes other : Bytes} {stop : Nat} (inside : stop ≤ bytes.size)
    (same : other.extract 0 stop = bytes.extract 0 stop) : Shares bytes other stop := by
  intro a b bs before spans
  have reach : stop ≤ other.size := by
    have size := congrArg Array.size same
    simp only [Array.size_extract] at size
    omega
  have cut (x : Bytes) : x.extract a b = (x.extract 0 stop).extract a b := by
    rw [Array.extract_extract, Nat.zero_add, Nat.zero_add, Nat.min_eq_left before]
  refine ⟨spans.stop_eq, Nat.le_trans before reach, spans.room, ?_⟩
  rw [cut other, same, ← cut bytes]
  exact spans.content

namespace Header

/-- Counts are read from just the windows that they are written to.  An integer is refused that is
no count, a window is never empty, and nothing behind it is looked at. -/
theorem count_windows (header : Header) (unlimited : header.Unlimited) (bytes : Bytes)
    (small : bytes.size < addressSpace) (offset : Nat) :
    (∀ n stop, (header.readCount bytes offset).outcome = .ok (n, stop) ↔
      header.encode n = .ok (bytes.extract offset stop) ∧ n < addressSpace ∧ offset < stop ∧
        stop ≤ bytes.size) ∧
    (∀ v stop, offset ≤ stop → stop ≤ bytes.size →
      (header.schema.decode (bytes.extract offset stop)).outcome = .ok (.int v) →
        (header.read bytes offset).outcome = .ok (v, stop)) ∧
    ∀ v stop, (header.read bytes offset).outcome = .ok (v, stop) →
      offset < stop ∧ stop ≤ bytes.size ∧
      (v < 0 ∨ addressSpace ≤ v → (header.readCount bytes offset).outcome =
        Outcome.fail (.intOutOfRange "usize" v 0 (addressSpace - 1))) ∧
      ∀ other : Bytes, other.extract 0 stop = bytes.extract 0 stop →
        header.read other offset = header.read bytes offset ∧
          header.readCount other offset = header.readCount bytes offset := by
  refine ⟨fun n stop => readCount_eq_ok_iff_encode unlimited small, ?_, ?_⟩
  · intro v stop le inside h
    have room : stop < addressSpace := Nat.lt_of_le_of_lt inside small
    have spans := Spans.extract le inside (.inr room)
    obtain ⟨log, hread⟩ := Schema.read_of_decoded header.schema_delimited room h spans
    obtain ⟨_, heq, hread⟩ := schema_read_eq_ok_iff.mp hread
    cases heq
    exact congrArg outcome hread
  · intro v stop h
    obtain ⟨log, hread⟩ := outcome_eq_ok.mp h
    obtain ⟨forward, inside⟩ := read_lt hread
    refine ⟨forward, inside, readCount_of_read hread, fun other same => ?_⟩
    have again := read_shares hread (shares_of_extract_eq inside same)
    refine ⟨again.trans hread.symm, ?_⟩
    rw [readCount, readCount, again, hread]

/-- A signed word in a frame with one byte of length. -/
def framedWord : Header :=
  framed (plain (.word true .two .little)) (plain (.word false .one .big)) .all

theorem count_windows_framedWord :
    framedWord.Unlimited ∧
    (framedWord.readCount #[9, 2, 44, 1, 7] 1).outcome = .ok (300, 4) ∧
    framedWord.encode 300 = .ok #[2, 44, 1] ∧
    (∀ n stop, (framedWord.readCount #[9, 2, 255, 255, 7] 1).outcome ≠ .ok (n, stop)) ∧
    (framedWord.read #[9, 2, 255, 255, 7] 1).outcome = .ok (-1, 4) ∧
    (framedWord.readCount #[9, 2, 255, 255, 7] 1).outcome =
      Outcome.fail (.intOutOfRange "usize" (-1) 0 18446744073709551615) ∧
    framedWord.readCount #[9, 2, 255, 255] 1 = framedWord.readCount #[9, 2, 255, 255, 7] 1 := by
  have unlimited : framedWord.Unlimited := ⟨fun _ _ => rfl, trivial, trivial⟩
  have encoded : framedWord.encode 300 = .ok #[2, 44, 1] := rfl
  obtain ⟨counts, -, -⟩ := count_windows framedWord unlimited #[9, 2, 44, 1, 7] (by decide) 1
  obtain ⟨-, decoded, integers⟩ :=
    count_windows framedWord unlimited #[9, 2, 255, 255, 7] (by decide) 1
  have negative := decoded (-1) 4 (by decide) (by decide) rfl
  obtain ⟨-, -, refused, alike⟩ := integers (-1) 4 negative
  have noCount := refused (.inl (by decide))
  refine ⟨unlimited, ?_, encoded, fun n stop h => ?_, negative, noCount,
    (alike #[9, 2, 255, 255] rfl).2⟩
  · exact (counts 300 4).mpr ⟨encoded, by decide, by decide, by decide⟩
  · cases noCount.symm.trans h

end Header
end ByteSchema
