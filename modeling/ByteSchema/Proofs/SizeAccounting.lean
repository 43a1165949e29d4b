import ByteSchema.Proofs.AnnouncedLengths

/-!
# Announced sizes and written bytes

The size walk may know the size of a value that cannot be written, but where writing succeeds the
two agree.  So the encoder answers whenever writing alone does, and no length that it or a frame
announces is found wrong.
-/
namespace ByteSchema.Schema

open Bytes

variable {s : Schema} {v : Value}

private theorem encodeSize_of_write (sized : s.Everywhere Sized) {offset stop : Nat}
    {buffer after : Bytes} (h : (s.write v offset).run buffer = .ok stop after) :
    offset ≤ stop ∧ s.encodeSize v = .ok (stop - offset) := by
  obtain ⟨bs, himage, rfl, spliced⟩ := (write_renders sized v).sound h
  rw [Nat.add_sub_cancel_left]
  exact ⟨Nat.le_add_right _ _, encodeSize_of_image sized himage spliced.length_lt⟩

private theorem encode_isOk_iff_write (sized : s.Everywhere Sized) :
    (∃ bytes, s.encode v = .ok bytes) ↔ ∃ stop after, (s.write v 0).run #[] = .ok stop after := by
  have renders := write_renders sized v
  constructor
  · rintro ⟨bytes, h⟩
    obtain ⟨bs, himage, small, rfl⟩ := (encode_eq_ok_iff sized).mp h
    obtain ⟨after, hwrite⟩ := renders.total himage 0 #[] (by omega)
    exact ⟨_, after, hwrite⟩
  · rintro ⟨stop, after, hwrite⟩
    obtain ⟨bs, himage, _, spliced⟩ := renders.sound hwrite
    exact ⟨_, (encode_eq_ok_iff sized).mpr ⟨bs, himage, spliced.length_lt, rfl⟩⟩

private theorem encodeSize_of_encode (sized : s.Everywhere Sized) {bytes : Bytes}
    (h : s.encode v = .ok bytes) : s.encodeSize v = .ok bytes.size := by
  obtain ⟨bs, himage, small, rfl⟩ := (encode_eq_ok_iff sized).mp h
  exact encodeSize_of_image sized himage small

/-- What `write` puts into a buffer has the size that `encodeSize` tells.  Encoding succeeds just
where writing into an empty buffer does, with as many bytes, and neither of the two checks of a
written length fails. -/
theorem size_accounting (s : Schema) (sized : s.Everywhere Sized) (v : Value) :
    (∀ offset buffer stop after, (s.write v offset).run buffer = .ok stop after →
      offset ≤ stop ∧ s.encodeSize v = .ok (stop - offset)) ∧
    ((∃ bytes, s.encode v = .ok bytes) ↔ ∃ stop after, (s.write v 0).run #[] = .ok stop after) ∧
    (∀ bytes, s.encode v = .ok bytes → s.encodeSize v = .ok bytes.size) ∧
    s.encode v ≠ Outcome.abort .writtenLength ∧
    ∀ offset buffer after,
      (s.write v offset).run buffer ≠ .error (.fault .writtenLength) after := by
  refine ⟨?_, encode_isOk_iff_write sized, ?_, ?_, ?_⟩
  · intro offset buffer stop after h
    exact encodeSize_of_write sized h
  · intro bytes h
    exact encodeSize_of_encode sized h
  · intro h
    exact encode_truthful sized v _ h rfl
  · intro offset buffer after h
    exact write_truthful sized v offset buffer _ after h rfl

theorem size_accounting_packet : packet.Everywhere Sized ∧ packet.encodeSize packetValue = .ok 22 :=
  have accounts := size_accounting packet packet_sized packetValue
  ⟨packet_sized, (accounts.1 0 #[] 22 _ rfl).2⟩

end ByteSchema.Schema
