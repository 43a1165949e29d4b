import ByteSchema.Schema.Write
import ByteSchema.Proofs.SchemaParts

/-!
# The bytes of values

The image of a value is put together from the images of its parts, with no buffer and no offset.
Writing renders it and the announced size is its length, so the two walks over a value agree; both
are shown here by one induction over the schema, the size first, since frames are written by it.
-/
namespace ByteSchema.Schema

open Bytes

mutual

/-- The bytes that a schema writes for a value. -/
def image : Schema → Value → Outcome (List UInt8)
  | int format, v => do format.image (← v.asInt)
  | float precision order, v => do (← v.asFloat).image precision order
  | bool header, v => do header.image (← v.asBool).toNat
  | slot content shape, v => do shape.image (← content.toBytes v)
  | constant bytes, v => do
    v.asUnit
    return bytes
  | record fields, v => do imageFields fields (← v.asList)
  | array item length _, v => do Items.image length item.image (← v.asList)
  | map _ key value length _, v => do
    Items.image length (fun e => do return (← key.image e.1) ++ (← value.image e.2)) (← v.asEntries)
  | option header inner, v => do
    match ← v.asOption with
    | none => header.image 0
    | some v => return (← header.image 1) ++ (← inner.image v)
  | union header variants, v => do
    let (label, payload) ← v.asCase
    imageCase header label payload variants
  | framed inner header _, v => Frame.image header.image (inner.image v)
  | converted conversion inner, v => inner.image (conversion.store v)

def imageFields : List (Field Schema) → List Value → Outcome (List UInt8)
  | [], [] => .ok []
  | f :: fields, v :: vs => do return (← f.schema.image v) ++ (← imageFields fields vs)
  | _, _ => Outcome.abort .wrongShape

/-- The first variant with the label is the one that counts. -/
def imageCase (header : Header) (label : String) (payload : Value) :
    List (Variant Schema) → Outcome (List UInt8)
  | [] => Outcome.fail .unmatchedVariant
  | v :: variants =>
    if v.label = label then do return (← header.image v.tag) ++ (← v.schema.image payload)
    else imageCase header label payload variants

end

/-- The bytes that a map writes for one of its entries. -/
def imagePair (key value : Schema) (e : Value × Value) : Outcome (List UInt8) := do
  return (← key.image e.1) ++ (← value.image e.2)

variable {s : Schema} {v : Value} {bs : List UInt8} {n : Nat}

theorem imagePair_eq_ok_iff {key value : Schema} {e : Value × Value} :
    imagePair key value e = .ok bs ↔ ∃ first second, key.image e.1 = .ok first ∧
      value.image e.2 = .ok second ∧ bs = first ++ second := append_eq_ok_iff

/-- Both halves of a pair have their own sizes. -/
theorem length_image_pair {key value : Schema} {k : Nat}
    (pair : Items.pairSize key.size value.size = .ok (.fixed k))
    (hkey : ∀ {n v bs}, key.size = .ok (.fixed n) → key.image v = .ok bs → bs.length = n)
    (hvalue : ∀ {n v bs}, value.size = .ok (.fixed n) → value.image v = .ok bs → bs.length = n)
    {e : Value × Value} (h : imagePair key value e = .ok bs) : bs.length = k := by
  obtain ⟨x, y, hx, hy, -, rfl⟩ := Items.pairSize_eq_fixed_iff.mp pair
  obtain ⟨first, second, hfirst, hsecond, rfl⟩ := imagePair_eq_ok_iff.mp h
  rw [List.length_append, hkey hx hfirst, hvalue hy hsecond]

private theorem length_imageFields {total : Nat} {fields : List (Field Schema)} {vs : List Value}
    (each : ∀ f ∈ fields, ∀ {v bs n}, f.schema.size = .ok (.fixed n) →
      f.schema.image v = .ok bs → bs.length = n)
    (size : sizeAfter (.fixed total) fields = .ok (.fixed n))
    (h : imageFields fields vs = .ok bs) : total + bs.length = n := by
  induction fields generalizing total vs bs with
  | nil =>
    cases vs with
    | nil =>
      cases size
      cases h
      rfl
    | cons v vs => cases h
  | cons f fields ih =>
    cases vs with
    | nil => cases h
    | cons v vs =>
      obtain ⟨k, hk, size⟩ := sizeAfter_cons_eq_fixed size
      obtain ⟨first, rest, hfirst, hrest, rfl⟩ := append_eq_ok_iff.mp h
      have head := each f List.mem_cons_self hk hfirst
      have tail := ih (fun g hg => each g (List.mem_cons_of_mem f hg)) size hrest
      rw [List.length_append]
      omega

/-- The variant that was written, behind its tag. -/
theorem imageCase_eq_ok {header : Header} {label : String} {payload : Value}
    {variants : List (Variant Schema)} (h : imageCase header label payload variants = .ok bs) :
    ∃ v ∈ variants, v.label = label ∧ ∃ first second, header.image v.tag = .ok first ∧
      v.schema.image payload = .ok second ∧ bs = first ++ second := by
  induction variants with
  | nil => cases h
  | cons v variants ih =>
    rw [imageCase] at h
    by_cases same : v.label = label
    · rw [if_pos same] at h
      exact ⟨v, List.mem_cons_self, same, append_eq_ok_iff.mp h⟩
    · rw [if_neg same] at h
      obtain ⟨w, hw, found⟩ := ih h
      exact ⟨w, List.mem_cons_of_mem v hw, found⟩

/-- Where no label stands twice, each variant is written by its label. -/
theorem imageCase_of_mem {header : Header} {payload : Value} {variants : List (Variant Schema)}
    {v : Variant Schema} {first second : List UInt8}
    (distinct : (variants.map (·.label)).Nodup) (hv : v ∈ variants)
    (htag : header.image v.tag = .ok first) (hpayload : v.schema.image payload = .ok second) :
    imageCase header v.label payload variants = .ok (first ++ second) := by
  induction variants with
  | nil => cases hv
  | cons w variants ih =>
    obtain ⟨fresh, distinct⟩ := List.nodup_cons.mp distinct
    rw [imageCase]
    cases hv with
    | head =>
      rw [if_pos rfl]
      exact append_eq_ok_iff.mpr ⟨first, second, htag, hpayload, rfl⟩
    | tail _ hv =>
      have other : w.label ≠ v.label := fun same =>
        fresh (List.mem_map.mpr ⟨v, hv, same.symm⟩)
      rw [if_neg other]
      exact ih distinct hv

/-- All images of a schema of fixed size have that length. -/
theorem length_image_of_fixed (size : s.size = .ok (.fixed n)) (h : s.image v = .ok bs) :
    bs.length = n := by
  induction s generalizing n v bs with
  | int format =>
    obtain ⟨x, _, h⟩ := Outcome.bind_eq_ok.mp h
    exact IntFormat.encodeSize_of_fixed (Except.ok.inj size) (IntFormat.encodeSize_of_image h)
  | float precision order =>
    obtain ⟨x, _, h⟩ := Outcome.bind_eq_ok.mp h
    cases size
    exact Floating.length_image h
  | bool header =>
    obtain ⟨b, _, h⟩ := Outcome.bind_eq_ok.mp h
    exact Header.length_image_of_fixed size h
  | slot content shape =>
    obtain ⟨payload, _, h⟩ := Outcome.bind_eq_ok.mp h
    exact Slot.length_image_of_fixed (Except.ok.inj size) h
  | constant bytes =>
    obtain ⟨_, _, h⟩ := Outcome.bind_eq_ok.mp h
    cases size
    cases h
    rfl
  | record fields each =>
    obtain ⟨vs, _, h⟩ := Outcome.bind_eq_ok.mp h
    have total := length_imageFields each size h
    omega
  | array item length limit hitem =>
    obtain ⟨vs, _, h⟩ := Outcome.bind_eq_ok.mp h
    obtain ⟨size, hsize, hfixed⟩ := array_size_eq_fixed size
    refine Items.length_image_of_fixed hfixed (fun k hk _ _ _ hpart => ?_) h
    exact hitem (hk ▸ hsize) hpart
  | map kind key value length limit hkey hvalue =>
    obtain ⟨entries, _, h⟩ := Outcome.bind_eq_ok.mp h
    obtain ⟨size, hsize, hfixed⟩ := map_size_eq_fixed size
    refine Items.length_image_of_fixed hfixed (fun k hk _ _ _ hpart => ?_) h
    exact length_image_pair (hk ▸ hsize) hkey hvalue hpart
  | option header inner => cases size
  | union header variants each =>
    obtain ⟨⟨label, payload⟩, _, h⟩ := Outcome.bind_eq_ok.mp h
    obtain ⟨tag, k, htag, hvariants, rfl⟩ := union_size_eq_fixed size
    obtain ⟨v, hv, _, first, second, hfirst, hsecond, rfl⟩ := imageCase_eq_ok h
    rw [List.length_append, Header.length_image_of_fixed htag hfirst,
      each v hv (hvariants v hv) hsecond]
  | framed inner header limit hinner =>
    obtain ⟨x, y, hx, hy, rfl⟩ := framed_size_eq_fixed size
    obtain ⟨payload, outer, hp, ho, rfl⟩ := Frame.image_eq_ok_iff.mp h
    rw [List.length_append, Header.length_image_of_fixed hx ho, hinner hy hp]
  | converted conversion inner hinner => exact hinner size h

private theorem encodeSizeAfter_of_image {sum : Nat} {fields : List (Field Schema)}
    {vs : List Value}
    (each : ∀ f ∈ fields, ∀ {v bs}, f.schema.image v = .ok bs → bs.length < addressSpace →
      f.schema.encodeSize v = .ok bs.length)
    (h : imageFields fields vs = .ok bs) (small : sum + bs.length < addressSpace) :
    encodeSizeAfter sum fields vs = .ok (sum + bs.length) := by
  induction fields generalizing sum vs bs with
  | nil =>
    cases vs with
    | nil =>
      cases h
      rfl
    | cons v vs => cases h
  | cons f fields ih =>
    cases vs with
    | nil => cases h
    | cons v vs =>
      obtain ⟨first, rest, hfirst, hrest, rfl⟩ := append_eq_ok_iff.mp h
      rw [List.length_append] at small ⊢
      have head := each f List.mem_cons_self hfirst (by omega)
      have tail : encodeSizeAfter (sum + first.length) fields vs =
          .ok (sum + first.length + rest.length) :=
        ih (fun g hg => each g (List.mem_cons_of_mem f hg)) hrest (by omega)
      rw [encodeSizeAfter]
      refine Outcome.bind_eq_ok.mpr ⟨_, head,
        Outcome.bind_eq_ok.mpr ⟨sum + first.length, ?_, ?_⟩⟩
      · exact checkedAdd_eq_ok_iff.mpr ⟨by omega, rfl⟩
      · rw [tail, Nat.add_assoc]

private theorem encodeSizeCase_of_image {header : Header} {label : String} {payload : Value}
    {variants : List (Variant Schema)}
    (each : ∀ v ∈ variants, ∀ {bs}, v.schema.image payload = .ok bs → bs.length < addressSpace →
      v.schema.encodeSize payload = .ok bs.length)
    (h : imageCase header label payload variants = .ok bs) (small : bs.length < addressSpace) :
    encodeSizeCase header label payload variants = .ok bs.length := by
  induction variants with
  | nil => cases h
  | cons v variants ih =>
    rw [imageCase] at h
    rw [encodeSizeCase]
    by_cases same : v.label = label
    · rw [if_pos same] at h ⊢
      obtain ⟨first, second, hfirst, hsecond, rfl⟩ := append_eq_ok_iff.mp h
      rw [List.length_append] at small ⊢
      have tag := Header.encodeSize_of_image hfirst (by omega)
      have rest := each v List.mem_cons_self hsecond (by omega)
      exact Outcome.bind_eq_ok.mpr ⟨_, tag, Outcome.bind_eq_ok.mpr ⟨_, rest,
        checkedAdd_eq_ok_iff.mpr ⟨small, rfl⟩⟩⟩
    · rw [if_neg same] at h ⊢
      exact ih (fun w hw => each w (List.mem_cons_of_mem v hw)) h

private theorem encodeSize_pair {key value : Schema} {sum : Nat} {e : Value × Value}
    (hkey : ∀ {v bs}, key.image v = .ok bs → bs.length < addressSpace →
      key.encodeSize v = .ok bs.length)
    (hvalue : ∀ {v bs}, value.image v = .ok bs → bs.length < addressSpace →
      value.encodeSize v = .ok bs.length)
    (h : imagePair key value e = .ok bs) (small : sum + bs.length < addressSpace) :
    (do
      let sum ← checkedAdd sum (← key.encodeSize e.1)
      checkedAdd sum (← value.encodeSize e.2)) = .ok (sum + bs.length) := by
  obtain ⟨first, second, hfirst, hsecond, rfl⟩ := imagePair_eq_ok_iff.mp h
  rw [List.length_append] at small ⊢
  rw [hkey hfirst (by omega), hvalue hsecond (by omega)]
  refine Outcome.bind_eq_ok.mpr ⟨_, rfl, Outcome.bind_eq_ok.mpr ⟨sum + first.length, ?_, ?_⟩⟩
  · exact checkedAdd_eq_ok_iff.mpr ⟨by omega, rfl⟩
  · exact checkedAdd_eq_ok_iff.mpr ⟨by omega, by omega⟩

/-- The announced size of a value is the length of its image. -/
theorem encodeSize_of_image (sized : s.Everywhere Sized) (h : s.image v = .ok bs)
    (small : bs.length < addressSpace) : s.encodeSize v = .ok bs.length := by
  induction s generalizing v bs with
  | int format =>
    obtain ⟨x, hx, h⟩ := Outcome.bind_eq_ok.mp h
    exact Outcome.bind_eq_ok.mpr ⟨x, hx, IntFormat.encodeSize_of_image h⟩
  | float precision order =>
    obtain ⟨x, hx, h⟩ := Outcome.bind_eq_ok.mp h
    exact Outcome.bind_eq_ok.mpr ⟨x, hx, congrArg Except.ok (Floating.length_image h).symm⟩
  | bool header =>
    obtain ⟨b, hb, h⟩ := Outcome.bind_eq_ok.mp h
    exact Outcome.bind_eq_ok.mpr ⟨b, hb, Header.encodeSize_of_image h small⟩
  | slot content shape =>
    obtain ⟨payload, hpayload, h⟩ := Outcome.bind_eq_ok.mp h
    rw [encodeSize, hpayload]
    exact Slot.encodeSize_of_image h small
  | constant bytes =>
    obtain ⟨u, hu, h⟩ := Outcome.bind_eq_ok.mp h
    cases h
    exact Outcome.bind_eq_ok.mpr ⟨u, hu, rfl⟩
  | record fields each =>
    obtain ⟨vs, hvs, h⟩ := Outcome.bind_eq_ok.mp h
    have sum := @encodeSizeAfter_of_image _ 0 _ _ (fun f hf _ _ => each f hf (sized.field hf)) h
      (by omega)
    rw [Nat.zero_add] at sum
    exact Outcome.bind_eq_ok.mpr ⟨vs, hvs, sum⟩
  | array item length limit hitem =>
    obtain ⟨vs, hvs, h⟩ := Outcome.bind_eq_ok.mp h
    have inside : item.Everywhere Sized := sized.part List.mem_cons_self
    obtain ⟨size, hsize⟩ := inside.here
    refine Outcome.bind_eq_ok.mpr ⟨vs, hvs, Items.encodeSize_of_image hsize ?_ ?_ h small⟩
    · intro k hk _ _ _ hpart
      exact length_image_of_fixed (hk ▸ hsize) hpart
    · intro _ _ sum part hpart fits
      exact Outcome.bind_eq_ok.mpr ⟨_, hitem inside hpart (by omega),
        checkedAdd_eq_ok_iff.mpr ⟨fits, rfl⟩⟩
  | map kind key value length limit hkey hvalue =>
    obtain ⟨entries, hentries, h⟩ := Outcome.bind_eq_ok.mp h
    obtain ⟨keys, values⟩ := sized.pair
    obtain ⟨_, hsized⟩ := sized.here
    obtain ⟨size, hsize, _⟩ := Outcome.bind_eq_ok.mp hsized
    refine Outcome.bind_eq_ok.mpr ⟨entries, hentries, Items.encodeSize_of_image hsize ?_ ?_ h small⟩
    · intro k hk _ _ _ hpart
      exact length_image_pair (hk ▸ hsize) length_image_of_fixed length_image_of_fixed hpart
    · intro _ _ sum part hpart fits
      exact encodeSize_pair (hkey keys) (hvalue values) hpart fits
  | option header inner hinner =>
    obtain ⟨o, ho, h⟩ := Outcome.bind_eq_ok.mp h
    refine Outcome.bind_eq_ok.mpr ⟨o, ho, ?_⟩
    cases o with
    | none => exact Header.encodeSize_of_image h small
    | some w =>
      obtain ⟨first, second, hfirst, hsecond, rfl⟩ := append_eq_ok_iff.mp h
      rw [List.length_append] at small ⊢
      have tag := Header.encodeSize_of_image hfirst (by omega)
      have rest := hinner (sized.part List.mem_cons_self) hsecond (by omega)
      exact Outcome.bind_eq_ok.mpr ⟨_, tag, Outcome.bind_eq_ok.mpr ⟨_, rest,
        checkedAdd_eq_ok_iff.mpr ⟨small, rfl⟩⟩⟩
  | union header variants each =>
    obtain ⟨⟨label, payload⟩, hcase, h⟩ := Outcome.bind_eq_ok.mp h
    exact Outcome.bind_eq_ok.mpr ⟨_, hcase,
      encodeSizeCase_of_image (fun w hw _ => each w hw (sized.variant hw)) h small⟩
  | framed inner header limit hinner =>
    exact Frame.encodeSize_of_image h (fun _ _ ho fits => Header.encodeSize_of_image ho fits)
      (fun _ hp fits => hinner (sized.part List.mem_cons_self) hp fits) small
  | converted conversion inner hinner =>
    have inside : inner.Everywhere Sized := sized.part List.mem_cons_self
    obtain ⟨size, hsize⟩ := inside.here
    refine Outcome.bind_eq_ok.mpr ⟨size, hsize, ?_⟩
    cases size with
    | fixed n => exact congrArg Except.ok (length_image_of_fixed hsize h).symm
    | varying => exact hinner inside h small

private theorem writeFields_renders {fields : List (Field Schema)}
    (each : ∀ f ∈ fields, ∀ v, Renders (f.schema.write v) (f.schema.image v)) (vs : List Value) :
    Renders (writeFields fields vs) (imageFields fields vs) := by
  induction fields generalizing vs with
  | nil =>
    cases vs with
    | nil => exact .skip
    | cons v vs => exact .refuse _
  | cons f fields ih =>
    cases vs with
    | nil => exact .refuse _
    | cons v vs =>
      exact (each f List.mem_cons_self v).seq
        (ih (fun g hg => each g (List.mem_cons_of_mem f hg)) vs)

private theorem writeCase_renders {header : Header} {label : String} {payload : Value}
    {variants : List (Variant Schema)}
    (each : ∀ v ∈ variants, Renders (v.schema.write payload) (v.schema.image payload)) :
    Renders (writeCase header label payload variants)
      (imageCase header label payload variants) := by
  induction variants with
  | nil => exact .refuse _
  | cons v variants ih =>
    by_cases same : v.label = label
    · simp only [writeCase, imageCase, if_pos same]
      exact (header.write_renders v.tag).seq (each v List.mem_cons_self)
    · simp only [writeCase, imageCase, if_neg same]
      exact ih fun w hw => each w (List.mem_cons_of_mem v hw)

/-- Writing a value renders its image. -/
theorem write_renders (sized : s.Everywhere Sized) (v : Value) :
    Renders (s.write v) (s.image v) := by
  induction s generalizing v with
  | int format => exact .lift fun x _ => format.write_renders x
  | float precision order => exact .lift fun x _ => x.write_renders precision order
  | bool header => exact .lift fun b _ => header.write_renders b.toNat
  | slot content shape => exact .lift fun payload _ => shape.write_renders payload
  | constant bytes => exact .lift fun _ _ => .put bytes
  | record fields each =>
    exact .lift fun vs _ => writeFields_renders (fun f hf => each f hf (sized.field hf)) vs
  | array item length limit hitem =>
    exact .lift fun vs _ => Items.write_renders fun v _ => hitem (sized.part List.mem_cons_self) v
  | map kind key value length limit hkey hvalue =>
    obtain ⟨keys, values⟩ := sized.pair
    exact .lift fun entries _ => Items.write_renders fun e _ =>
      (hkey keys e.1).seq (hvalue values e.2)
  | option header inner hinner =>
    refine .lift fun o _ => ?_
    cases o with
    | none => exact header.write_renders 0
    | some w => exact (header.write_renders 1).seq (hinner (sized.part List.mem_cons_self) w)
  | union header variants each =>
    refine .lift fun c _ => writeCase_renders fun w hw => each w hw (sized.variant hw) c.2
  | framed inner header limit hinner =>
    have inside : inner.Everywhere Sized := sized.part List.mem_cons_self
    exact Frame.write_renders header.write_renders (hinner inside v) fun _ h small =>
      encodeSize_of_image inside h small
  | converted conversion inner hinner =>
    exact hinner (sized.part List.mem_cons_self) (conversion.store v)

/-- Encoding answers the image of a value, if there is one that fits into the address space. -/
theorem encode_eq_ok_iff (sized : s.Everywhere Sized) {bytes : Bytes} :
    s.encode v = .ok bytes ↔
      ∃ bs, s.image v = .ok bs ∧ bs.length < addressSpace ∧ bytes = bs.toArray :=
  (s.write_renders sized v).encode_eq_ok_iff fun _ h small => encodeSize_of_image sized h small

end ByteSchema.Schema
