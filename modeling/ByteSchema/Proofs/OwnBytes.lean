import ByteSchema.Proofs.FixedSizes
import ByteSchema.Proofs.PrecedingBytes
import ByteSchema.Proofs.SharedInput

/-!
# Values and the stretches that they were read from

The stretch that a value was read from decodes to the value when it is taken by itself, whatever
stood around it.  The other way round, bytes that decode to a value are read as this value wherever
they stand, unless something goes on to the end of the input.
-/
namespace ByteSchema

open Bytes Reading

namespace Bytes

variable {bytes : Bytes} {offset stop : Nat}

private theorem extract_to_append (le : stop ≤ bytes.size) :
    bytes.extract 0 stop ++ bytes.extract stop bytes.size = bytes := by
  rw [Array.extract_append_extract, Nat.min_eq_left (Nat.zero_le stop), Nat.max_eq_right le,
    Array.extract_size]

/-- The input up to the stop is what stands in front of the offset and the stretch behind it. -/
private theorem extract_to_stop (le : offset ≤ stop) :
    bytes.extract 0 offset ++ bytes.extract offset stop = bytes.extract 0 stop := by
  rw [Array.extract_append_extract, Nat.min_eq_left (Nat.zero_le offset), Nat.max_eq_right le]

private theorem size_extract_to (le : stop ≤ bytes.size) : (bytes.extract 0 stop).size = stop := by
  rw [Array.size_extract, Nat.min_eq_left le, Nat.sub_zero]

end Bytes

namespace Schema

variable {s : Schema} {bytes part : Bytes} {offset stop : Nat} {v : Value} {log : List Event}

theorem decode_of_stretch {size : Size} (sized : s.size = .ok size)
    (small : bytes.size < addressSpace) (inside : offset ≤ bytes.size)
    (h : s.read bytes offset = ⟨log, .ok (v, stop)⟩) :
    (s.decode (bytes.extract offset stop)).outcome = .ok v := by
  obtain ⟨le, before⟩ := read_advances h inside
  have room : (bytes.extract 0 offset ++ bytes.extract offset stop).size < addressSpace := by
    rw [extract_to_stop le, size_extract_to before]
    omega
  have address : (bytes.extract 0 offset).size + 0 < addressSpace := by
    rw [size_extract_to inside]
    omega
  -- The input cut at the stop ends there; if the schema went on to the end, so did the whole input.
  have alike : Alike s.delimited bytes (bytes.extract 0 stop) stop := by
    refine ⟨?_, .inr fun whole => ?_⟩
    · have shares := shares_front (bytes.extract 0 stop) (bytes.extract stop bytes.size)
        (Nat.le_of_eq (size_extract_to before).symm)
      rwa [extract_to_append before] at shares
    · rw [size_extract_to before]
      omega
  have cut := read_agrees alike h (Nat.le_refl _)
  have alone : (s.read (bytes.extract offset stop) 0).outcome = .ok (v, stop - offset) := by
    rw [read_shifted_iff room address, extract_to_stop le, size_extract_to inside, Nat.add_zero,
      cut, Nat.add_sub_of_le le]
  obtain ⟨log', hread⟩ := outcome_eq_ok.mp alone
  have size : (bytes.extract offset stop).size = stop - offset := by
    rw [Array.size_extract, Nat.min_eq_left before]
  rw [← size] at hread
  rw [decode_of_read sized hread]

theorem read_of_decoded (closed : s.delimited = true) (small : stop < addressSpace)
    (h : (s.decode part).outcome = .ok v) (spans : Spans bytes offset part.toList stop) :
    ∃ log, s.read bytes offset = ⟨log, .ok (v, stop)⟩ := by
  obtain ⟨log, hdecode⟩ := outcome_eq_ok.mp h
  obtain ⟨size, sized, -, hread⟩ := read_of_decode hdecode
  have le := spans.le
  have before := spans.inside
  have inside := Nat.le_trans le before
  have total : stop = offset + part.size := spans.stop_eq
  have found : bytes.extract offset stop = part := Array.toList_inj.mp spans.content
  have room : (bytes.extract 0 offset ++ part).size < addressSpace := by
    rw [← found, extract_to_stop le, size_extract_to before]
    exact small
  have address : (bytes.extract 0 offset).size + 0 < addressSpace := by
    rw [size_extract_to inside]
    omega
  have behind := (read_shifted_iff room address).mp (congrArg Reading.outcome hread)
  rw [← found, extract_to_stop le, size_extract_to inside, Nat.add_zero, found, ← total] at behind
  obtain ⟨log', cut⟩ := outcome_eq_ok.mp behind
  have shares := shares_append (bytes.extract 0 stop) (bytes.extract stop bytes.size) stop
  rw [extract_to_append before] at shares
  exact ⟨log', read_shares closed cut shares⟩

end Schema
end ByteSchema
