import ByteSchema.Proofs.SchemaImages

/-!
# What is encoded, written into a buffer

Writing at an offset of any buffer puts there just what encoding answers, and no other byte of the
buffer is touched; what is missing of the buffer before the offset is filled with zeros.  What is
encoded is put together from the encodings of the parts, one behind the other.
-/
namespace ByteSchema

open Bytes

namespace Bytes

/-- `after` is the buffer with the bytes at the offset, and no longer than it has to be. -/
structure Splices (buffer : Bytes) (offset : Nat) (bytes after : Bytes) : Prop where
  size : after.size = max buffer.size (offset + bytes.size)
  inside : ∀ i < bytes.size, after[offset + i]? = bytes[i]?
  kept : ∀ i < buffer.size, i < offset ∨ offset + bytes.size ≤ i → after[i]? = buffer[i]?
  gap : ∀ i < offset, buffer.size ≤ i → after[i]? = some 0

theorem splices_splice (buffer : Bytes) (offset : Nat) (bs : List UInt8) :
    Splices buffer offset bs.toArray (buffer.splice offset bs) where
  size := size_splice buffer offset bs
  inside i within := by
    have here : offset ≤ offset + i ∧ offset + i < offset + bs.length :=
      ⟨Nat.le_add_right offset i, Nat.add_lt_add_left within offset⟩
    rw [getElem?_splice, if_pos here, Nat.add_sub_cancel_left, List.getElem?_toArray]
  kept i old outside := by
    have elsewhere : ¬ (offset ≤ i ∧ i < offset + bs.length) := by
      rw [List.size_toArray] at outside
      omega
    rw [getElem?_splice, if_neg elsewhere, if_pos old]
  gap i before new := by
    have elsewhere : ¬ (offset ≤ i ∧ i < offset + bs.length) := by omega
    rw [getElem?_splice, if_neg elsewhere, if_neg (Nat.not_lt.mpr new),
      if_pos (Nat.lt_add_right _ before)]

/-- The parts one behind the other, all of which were answered. -/
inductive Joined : List (Outcome Bytes) → Bytes → Prop where
  | nil : Joined [] #[]
  | cons {part rest : Bytes} {parts : List (Outcome Bytes)} (tail : Joined parts rest) :
    Joined (.ok part :: parts) (part ++ rest)

theorem Joined.append {front back : Bytes} {parts more : List (Outcome Bytes)}
    (h : Joined parts front) (h' : Joined more back) : Joined (parts ++ more) (front ++ back) := by
  induction h with
  | nil => rwa [List.nil_append, Array.empty_append]
  | cons tail ih =>
    rw [List.cons_append, Array.append_assoc]
    exact .cons ih

theorem Joined.single (part : Bytes) : Joined [.ok part] part := by
  have one : Joined [.ok part] (part ++ #[]) := .cons .nil
  rwa [Array.append_empty] at one

theorem Joined.pair (first second : Bytes) : Joined [.ok first, .ok second] (first ++ second) :=
  .cons (.single second)

/-- Images that are those of encodings make up what the encodings make up. -/
theorem joined_of_imageAll {α : Type} {image : α → Outcome (List UInt8)}
    {encodings : α → List (Outcome Bytes)} {items : List α} {bs : List UInt8}
    (h : imageAll image items = .ok bs) (small : bs.length < addressSpace)
    (each : ∀ a ∈ items, ∀ part, image a = .ok part → part.length < addressSpace →
      Joined (encodings a) part.toArray) : Joined (items.flatMap encodings) bs.toArray := by
  induction items generalizing bs with
  | nil =>
    cases h
    exact .nil
  | cons a items ih =>
    obtain ⟨part, rest, hpart, hrest, rfl⟩ := append_eq_ok_iff.mp h
    rw [List.length_append] at small
    rw [List.flatMap_cons, ← List.append_toArray]
    refine (each a List.mem_cons_self part hpart (by omega)).append (ih hrest (by omega) ?_)
    exact fun b hb => each b (List.mem_cons_of_mem a hb)

end Bytes

/-- A header encodes counts, tags and flags like any other value. -/
def Header.encode (header : Header) (n : Nat) : Outcome Bytes :=
  Writing.encode (header.encodeSize n) (header.write n)

theorem Header.encode_of_image {header : Header} {n : Nat} {bs : List UInt8}
    (h : header.image n = .ok bs) (small : bs.length < addressSpace) :
    header.encode n = .ok bs.toArray :=
  ((header.write_renders n).encode_eq_ok_iff fun _ h small => encodeSize_of_image h small).mpr
    ⟨bs, h, small, rfl⟩

/-- The bytes of the count, if there are any. -/
def Length.encodeCount (length : Length) (count : Nat) : Outcome Bytes :=
  match length with
  | fixed n => do
    matchCount n count
    return #[]
  | counted header => header.encode count
  | remainder => .ok #[]

theorem Length.encodeCount_of_image {length : Length} {count : Nat} {bs : List UInt8}
    (h : length.image count = .ok bs) (small : bs.length < addressSpace) :
    length.encodeCount count = .ok bs.toArray := by
  cases length with
  | fixed n =>
    obtain ⟨_, hmatch, h⟩ := Outcome.bind_eq_ok.mp h
    cases h
    exact Outcome.bind_eq_ok.mpr ⟨_, hmatch, rfl⟩
  | counted header => exact Header.encode_of_image h small
  | remainder =>
    cases h
    rfl

namespace Items

theorem joined_of_image {α : Type} {length : Length} {image : α → Outcome (List UInt8)}
    {encodings : α → List (Outcome Bytes)} {items : List α} {bs : List UInt8}
    (h : Items.image length image items = .ok bs) (small : bs.length < addressSpace)
    (each : ∀ a ∈ items, ∀ part, image a = .ok part → part.length < addressSpace →
      Joined (encodings a) part.toArray) :
    Joined (length.encodeCount items.length :: items.flatMap encodings) bs.toArray := by
  obtain ⟨count, rest, hcount, hrest, rfl⟩ := append_eq_ok_iff.mp h
  rw [List.length_append] at small
  rw [Length.encodeCount_of_image hcount (by omega), ← List.append_toArray]
  exact .cons (joined_of_imageAll hrest (by omega) each)

end Items

namespace Schema

/-- The bytes of a value are those of its parts, one behind the other in the order of the schema. -/
def Assembled (bytes : Bytes) : Schema → Value → Prop
  | bool header, v => ∃ b, v = .bool b ∧ header.encode b.toNat = .ok bytes
  | record fields, v =>
    ∃ vs, v = .list vs ∧ fields.length = vs.length ∧
      Joined (List.zipWith (fun f w => f.schema.encode w) fields vs) bytes
  | array item length _, v =>
    ∃ vs, v = .list vs ∧ Joined (length.encodeCount vs.length :: vs.map item.encode) bytes
  | map _ key value length _, v =>
    ∃ entries, v = .map entries ∧
      Joined (length.encodeCount entries.length ::
        entries.flatMap fun e => [key.encode e.1, value.encode e.2]) bytes
  | option header inner, v =>
    (v = .absent ∧ header.encode 0 = .ok bytes) ∨
      ∃ w, v = .present w ∧ Joined [header.encode 1, inner.encode w] bytes
  | union header variants, v =>
    ∃ label payload w, v = .case label payload ∧
      variants.find? (fun u => u.label == label) = some w ∧
      Joined [header.encode w.tag, w.schema.encode payload] bytes
  | framed inner header _, v =>
    ∃ payload, inner.encode v = .ok payload ∧
      Joined [header.encode payload.size, inner.encode v] bytes
  | converted conversion inner, v => inner.encode (conversion.store v) = .ok bytes
  | _, _ => True

variable {s : Schema} {v : Value} {bs : List UInt8}

theorem encode_of_image (sized : s.Everywhere Sized) (h : s.image v = .ok bs)
    (small : bs.length < addressSpace) : s.encode v = .ok bs.toArray :=
  (encode_eq_ok_iff sized).mpr ⟨bs, h, small, rfl⟩

private theorem joined_of_imageFields {fields : List (Field Schema)} {vs : List Value}
    (each : ∀ f ∈ fields, f.schema.Everywhere Sized) (h : imageFields fields vs = .ok bs)
    (small : bs.length < addressSpace) :
    fields.length = vs.length ∧
      Joined (List.zipWith (fun f w => f.schema.encode w) fields vs) bs.toArray := by
  induction fields generalizing vs bs with
  | nil =>
    cases vs with
    | nil =>
      cases h
      exact ⟨rfl, .nil⟩
    | cons v vs => cases h
  | cons f fields ih =>
    cases vs with
    | nil => cases h
    | cons v vs =>
      obtain ⟨part, rest, hpart, hrest, rfl⟩ := append_eq_ok_iff.mp h
      rw [List.length_append] at small
      obtain ⟨same, joined⟩ := ih (fun g hg => each g (List.mem_cons_of_mem f hg)) hrest (by omega)
      have first := encode_of_image (each f List.mem_cons_self) hpart (by omega)
      refine ⟨congrArg Nat.succ same, ?_⟩
      rw [List.zipWith_cons_cons, first, ← List.append_toArray]
      exact .cons joined

private theorem find_of_imageCase {header : Header} {label : String} {payload : Value}
    {variants : List (Variant Schema)} (h : imageCase header label payload variants = .ok bs) :
    ∃ w ∈ variants, variants.find? (fun u => u.label == label) = some w ∧
      ∃ first second, header.image w.tag = .ok first ∧ w.schema.image payload = .ok second ∧
        bs = first ++ second := by
  induction variants with
  | nil => cases h
  | cons u variants ih =>
    rw [imageCase] at h
    by_cases same : u.label = label
    · rw [if_pos same] at h
      exact ⟨u, List.mem_cons_self, by simp [same], append_eq_ok_iff.mp h⟩
    · rw [if_neg same] at h
      obtain ⟨w, hw, found, parts⟩ := ih h
      exact ⟨w, List.mem_cons_of_mem u hw, by simpa [same] using found, parts⟩

theorem assembled_of_image (sized : s.Everywhere Sized) (h : s.image v = .ok bs)
    (small : bs.length < addressSpace) : s.Assembled bs.toArray v := by
  cases s with
  | int | float | slot | constant => trivial
  | bool header =>
    obtain ⟨b, hb, h⟩ := Outcome.bind_eq_ok.mp h
    exact ⟨b, Value.asBool_eq_ok_iff.mp hb, Header.encode_of_image h small⟩
  | record fields =>
    obtain ⟨vs, hvs, h⟩ := Outcome.bind_eq_ok.mp h
    exact ⟨vs, Value.asList_eq_ok_iff.mp hvs,
      joined_of_imageFields (fun f hf => sized.field hf) h small⟩
  | array item length limit =>
    obtain ⟨vs, hvs, h⟩ := Outcome.bind_eq_ok.mp h
    refine ⟨vs, Value.asList_eq_ok_iff.mp hvs, ?_⟩
    rw [List.map_eq_flatMap]
    refine Items.joined_of_image h small fun w _ part hpart fits => ?_
    rw [encode_of_image (sized.part List.mem_cons_self) hpart fits]
    exact .single _
  | map kind key value length limit =>
    obtain ⟨keys, values⟩ := sized.pair
    obtain ⟨entries, hentries, h⟩ := Outcome.bind_eq_ok.mp h
    refine ⟨entries, Value.asEntries_eq_ok_iff.mp hentries, ?_⟩
    refine Items.joined_of_image h small fun e _ part hpart fits => ?_
    obtain ⟨first, second, hfirst, hsecond, rfl⟩ := append_eq_ok_iff.mp hpart
    rw [List.length_append] at fits
    rw [encode_of_image keys hfirst (by omega), encode_of_image values hsecond (by omega),
      ← List.append_toArray]
    exact .pair _ _
  | option header inner =>
    obtain ⟨o, ho, h⟩ := Outcome.bind_eq_ok.mp h
    cases o with
    | none => exact .inl ⟨Value.asOption_eq_ok_none_iff.mp ho, Header.encode_of_image h small⟩
    | some w =>
      obtain ⟨first, second, hfirst, hsecond, rfl⟩ := append_eq_ok_iff.mp h
      rw [List.length_append] at small
      refine .inr ⟨w, Value.asOption_eq_ok_some_iff.mp ho, ?_⟩
      rw [Header.encode_of_image hfirst (by omega),
        encode_of_image (sized.part List.mem_cons_self) hsecond (by omega), ← List.append_toArray]
      exact .pair _ _
  | union header variants =>
    obtain ⟨⟨label, payload⟩, hcase, h⟩ := Outcome.bind_eq_ok.mp h
    obtain ⟨w, hw, found, first, second, hfirst, hsecond, rfl⟩ := find_of_imageCase h
    rw [List.length_append] at small
    refine ⟨label, payload, w, Value.asCase_eq_ok_iff.mp hcase, found, ?_⟩
    rw [Header.encode_of_image hfirst (by omega),
      encode_of_image (sized.variant hw) hsecond (by omega), ← List.append_toArray]
    exact .pair _ _
  | framed inner header limit =>
    obtain ⟨payload, outer, hpayload, houter, rfl⟩ := Frame.image_eq_ok_iff.mp h
    rw [List.length_append] at small
    have encoded := encode_of_image (sized.part List.mem_cons_self) hpayload (by omega)
    refine ⟨payload.toArray, encoded, ?_⟩
    rw [encoded, List.size_toArray, Header.encode_of_image houter (by omega), ← List.append_toArray]
    exact .pair _ _
  | converted conversion inner => exact encode_of_image (sized.part List.mem_cons_self) h small

/-- Writing puts what encoding answers into any buffer at any offset with room for it, and what is
encoded is put together from the encodings of the parts. -/
theorem write_splices (s : Schema) (sized : s.Everywhere Sized) (v : Value) (bytes : Bytes)
    (h : s.encode v = .ok bytes) :
    (∀ (buffer : Bytes) (offset : Nat), offset + bytes.size < addressSpace →
      ∃ after, (s.write v offset).run buffer = .ok (offset + bytes.size) after ∧
        (Splices buffer offset bytes after ∨ (bytes = #[] ∧ after = buffer))) ∧
    s.Assembled bytes v := by
  obtain ⟨bs, himage, small, rfl⟩ := (encode_eq_ok_iff sized).mp h
  refine ⟨fun buffer offset room => ?_, assembled_of_image sized himage small⟩
  have renders := s.write_renders sized v
  obtain ⟨after, hwrite⟩ := renders.total himage offset buffer room
  refine ⟨after, hwrite, ?_⟩
  obtain ⟨bs', himage', -, spliced⟩ := renders.sound hwrite
  cases himage.symm.trans himage'
  rcases spliced with ⟨-, rfl⟩ | ⟨rfl, rfl⟩
  · exact .inl (splices_splice buffer offset bs)
  · exact .inr ⟨rfl, rfl⟩

set_option maxRecDepth 4000 in
theorem write_splices_packet :
    packet.Everywhere Sized ∧
    packet.encode packetValue =
      .ok #[1, 20, 7, 172, 2, 1, 0, 2, 10, 255, 0, 254, 255, 0, 0, 0, 5, 0, 0, 1, 128, 1] ∧
    ∃ after, (packet.write packetValue 3).run #[8, 9] = .ok 25 after ∧ after.size = 25 ∧
      after[1]? = some 9 ∧ after[2]? = some 0 ∧ after[5]? = some 7 := by
  have encoded : packet.encode packetValue =
      .ok #[1, 20, 7, 172, 2, 1, 0, 2, 10, 255, 0, 254, 255, 0, 0, 0, 5, 0, 0, 1, 128, 1] := rfl
  obtain ⟨writing, -⟩ := write_splices packet packet_sized packetValue _ encoded
  obtain ⟨after, hwrite, splices | ⟨none, -⟩⟩ := writing #[8, 9] 3 (by decide)
  · refine ⟨packet_sized, encoded, after, hwrite, splices.size, ?_, ?_, ?_⟩
    · exact splices.kept 1 (by decide) (.inl (by decide))
    · exact splices.gap 2 (by decide) (by decide)
    · exact splices.inside 2 (by decide)
  · cases none

end Schema
end ByteSchema
