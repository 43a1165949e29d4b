import ByteSchema.Proofs.StepInversion

/-!
# Writing steps and the bytes they write

A step renders an image when it succeeds exactly where the image fits, and then has put the image
into the buffer at the offset that it was given.  Steps that follow each other render the images
one behind the other.  What a step leaves in the buffer when it fails is not looked at here.
-/
namespace ByteSchema

namespace Bytes

/-- The buffer with `bs` at `offset`. -/
def splice (buffer : Bytes) (offset : Nat) (bs : List UInt8) : Bytes :=
  (buffer.growTo (offset + bs.length)).overwrite offset bs

theorem getElem?_splice (buffer : Bytes) (offset : Nat) (bs : List UInt8) (i : Nat) :
    (buffer.splice offset bs)[i]? =
      if offset ≤ i ∧ i < offset + bs.length then bs[i - offset]?
      else if i < buffer.size then buffer[i]?
      else if i < offset + bs.length then some 0 else none := by
  unfold splice
  by_cases h : i < (buffer.growTo (offset + bs.length)).size
  · rw [getElem?_overwrite _ _ _ _ h, getElem?_growTo]
  · have h' := h
    rw [size_growTo] at h'
    rw [Array.getElem?_eq_none (by rw [size_overwrite]; omega)]
    rw [if_neg (by omega), if_neg (by omega), if_neg (by omega)]

@[simp] theorem size_splice (buffer : Bytes) (offset : Nat) (bs : List UInt8) :
    (buffer.splice offset bs).size = max buffer.size (offset + bs.length) := by
  rw [splice, size_overwrite, size_growTo]

theorem splice_splice (buffer : Bytes) (offset : Nat) (as bs : List UInt8) :
    (buffer.splice offset as).splice (offset + as.length) bs = buffer.splice offset (as ++ bs) := by
  apply Array.ext_getElem?
  intro i
  simp only [getElem?_splice, size_splice, List.length_append]
  by_cases first : offset ≤ i ∧ i < offset + as.length
  · rw [if_neg (by omega), if_pos (by omega), if_pos first, if_pos (by omega),
      List.getElem?_append_left (by omega)]
  · by_cases second : offset + as.length ≤ i ∧ i < offset + as.length + bs.length
    · rw [if_pos second, if_pos (by omega), List.getElem?_append_right (by omega)]
      congr 1
      omega
    · have outside : ¬ (offset ≤ i ∧ i < offset + (as.length + bs.length)) := by omega
      rw [if_neg second, if_neg outside]
      by_cases old : i < buffer.size
      · rw [if_pos (by omega), if_neg first, if_pos old, if_pos old]
      · by_cases gap : i < offset
        · rw [if_neg old, if_pos (show i < offset + (as.length + bs.length) by omega)]
          by_cases h : i < max buffer.size (offset + as.length)
          · rw [if_pos h, if_neg first, if_neg old, if_pos (by omega)]
          · omega
        · rw [if_neg (by omega), if_neg (by omega), if_neg old, if_neg (by omega)]

/-- What a buffer becomes when `bs` is written at `offset`.  Nothing at all may be written in two
ways: by leaving the buffer alone, or by making room up to the offset. -/
def Spliced (buffer : Bytes) (offset : Nat) (bs : List UInt8) (after : Bytes) : Prop :=
  (offset + bs.length < addressSpace ∧ after = buffer.splice offset bs) ∨ (bs = [] ∧ after = buffer)

theorem Spliced.length_lt {buffer after : Bytes} {offset : Nat} {bs : List UInt8}
    (h : Spliced buffer offset bs after) : bs.length < addressSpace := by
  rcases h with ⟨small, _⟩ | ⟨rfl, _⟩
  · omega
  · decide

theorem Spliced.append {buffer middle after : Bytes} {offset : Nat} {as bs : List UInt8}
    (h : Spliced buffer offset as middle) (h' : Spliced middle (offset + as.length) bs after) :
    Spliced buffer offset (as ++ bs) after := by
  rcases h with ⟨small, rfl⟩ | ⟨rfl, rfl⟩
  · rcases h' with ⟨small', rfl⟩ | ⟨rfl, rfl⟩
    · refine .inl ⟨?_, splice_splice buffer offset as bs⟩
      rw [List.length_append]
      omega
    · rw [List.append_nil]
      exact .inl ⟨small, rfl⟩
  · exact h'

end Bytes

open Bytes

/-- The step succeeds where the image fits into the address space, and nowhere else unless there is
nothing to write. -/
structure Renders (step : Nat → Writing Nat) (image : Outcome (List UInt8)) : Prop where
  sound : ∀ {offset : Nat} {buffer : Bytes} {stop : Nat} {after : Bytes},
    (step offset).run buffer = .ok stop after →
      ∃ bs, image = .ok bs ∧ stop = offset + bs.length ∧ Spliced buffer offset bs after
  total : ∀ {bs : List UInt8}, image = .ok bs → ∀ (offset : Nat) (buffer : Bytes),
    offset + bs.length < addressSpace →
      ∃ after, (step offset).run buffer = .ok (offset + bs.length) after

/-- The images of items, one behind the other. -/
def imageAll {α : Type} (image : α → Outcome (List UInt8)) : List α → Outcome (List UInt8)
  | [] => .ok []
  | a :: as => do return (← image a) ++ (← imageAll image as)

theorem append_eq_ok_iff {x y : Outcome (List UInt8)} {bs : List UInt8} :
    (do return (← x) ++ (← y)) = (.ok bs : Outcome (List UInt8)) ↔
      ∃ first second, x = .ok first ∧ y = .ok second ∧ bs = first ++ second := by
  simp only [Outcome.bind_eq_ok, Outcome.pure_eq_ok]
  constructor
  · rintro ⟨first, hx, second, hy, rfl⟩
    exact ⟨first, second, hx, hy, rfl⟩
  · rintro ⟨first, second, hx, hy, rfl⟩
    exact ⟨first, hx, second, hy, rfl⟩

namespace Renders

variable {α : Type} {first second : Nat → Writing Nat} {x y : Outcome (List UInt8)}

theorem put (bs : List UInt8) : Renders (fun offset => Writing.put offset bs) (.ok bs) where
  sound {offset buffer stop after} h := by
    simp only [Writing.put, Writing.reserve, Writing.run_bind_eq_ok, Writing.run_lift_eq_ok,
      Writing.run_pure_eq_ok, checkedAdd_eq_ok_iff] at h
    obtain ⟨_, _, ⟨_, _, ⟨⟨small, rfl⟩, rfl⟩, _, _, hgrow, rfl, rfl⟩, _, _, hwrite, rfl, rfl⟩ := h
    cases hgrow
    cases hwrite
    exact ⟨bs, rfl, rfl, .inl ⟨small, rfl⟩⟩
  total {bs'} h offset buffer small := by
    cases h
    refine ⟨buffer.splice offset bs, ?_⟩
    simp only [Writing.put, Writing.reserve, Writing.run_bind_eq_ok, Writing.run_lift_eq_ok,
      Writing.run_pure_eq_ok, checkedAdd_eq_ok_iff]
    exact ⟨_, _, ⟨_, _, ⟨⟨small, rfl⟩, rfl⟩, (), _, rfl, rfl, rfl⟩, (), _, rfl, rfl, rfl⟩

/-- A step that does nothing renders nothing. -/
theorem skip : Renders (fun offset => pure offset) (.ok []) where
  sound h := by
    obtain ⟨rfl, rfl⟩ := Writing.run_pure_eq_ok.mp h
    exact ⟨[], rfl, rfl, .inr ⟨rfl, rfl⟩⟩
  total h offset buffer _ := by
    cases h
    exact ⟨buffer, rfl⟩

theorem refuse (e : Failure) : Renders (fun _ => Writing.of (.error e)) (.error e) where
  sound h := by
    cases (Writing.run_of_eq_ok.mp h).1
  total h := by
    cases h

theorem seq (hfirst : Renders first x) (hsecond : Renders second y) :
    Renders (fun offset => first offset >>= second) (do return (← x) ++ (← y)) where
  sound h := by
    obtain ⟨middle, between, hf, hs⟩ := Writing.run_bind_eq_ok.mp h
    obtain ⟨as, rfl, rfl, spliced⟩ := hfirst.sound hf
    obtain ⟨bs, rfl, rfl, spliced'⟩ := hsecond.sound hs
    refine ⟨as ++ bs, rfl, ?_, spliced.append spliced'⟩
    rw [List.length_append, Nat.add_assoc]
  total h offset buffer small := by
    obtain ⟨as, bs, rfl, rfl, rfl⟩ := append_eq_ok_iff.mp h
    rw [List.length_append] at small ⊢
    obtain ⟨between, hf⟩ := hfirst.total rfl offset buffer (by omega)
    obtain ⟨after, hs⟩ := hsecond.total rfl (offset + as.length) between (by omega)
    refine ⟨after, Writing.run_bind_eq_ok.mpr ⟨_, _, hf, ?_⟩⟩
    rw [hs, Nat.add_assoc]

/-- A step that depends on an outcome renders what it renders for each answer. -/
theorem lift {o : Outcome α} {step : α → Nat → Writing Nat} {image : α → Outcome (List UInt8)}
    (h : ∀ a, o = .ok a → Renders (step a) (image a)) :
    Renders (fun offset => (liftM o : Writing α) >>= fun a => step a offset) (o >>= image) := by
  cases o with
  | error e => exact refuse e
  | ok a => exact h a rfl

/-- Items written one after the other render their images one behind the other. -/
theorem fold {items : List α} {step : Nat → α → Writing Nat} {image : α → Outcome (List UInt8)}
    (h : ∀ a ∈ items, Renders (fun offset => step offset a) (image a)) :
    Renders (fun offset => items.foldlM step offset) (imageAll image items) := by
  induction items with
  | nil => exact skip
  | cons a items ih =>
    exact (h a List.mem_cons_self).seq (ih fun b hb => h b (List.mem_cons_of_mem a hb))

end Renders

/-- The bytes that a step leaves in a buffer of just the size that is announced for them. -/
def Writing.encode (size : Outcome Nat) (step : Nat → Writing Nat) : Outcome Bytes := do
  let len ← size
  match (step 0).run (Array.replicate len 0) with
  | .ok stop buffer => if stop = len then .ok buffer else Outcome.abort .writtenLength
  | .error e _ => .error e

/-- A buffer of just the size of what is spliced over it becomes that. -/
private theorem splice_whole (bs : List UInt8) (b : UInt8) :
    Bytes.splice (Array.replicate bs.length b) 0 bs = bs.toArray := by
  apply Array.ext_getElem?
  intro i
  rw [getElem?_splice, Array.size_replicate, Nat.zero_add]
  by_cases inside : i < bs.length
  · rw [if_pos ⟨Nat.zero_le i, inside⟩, Nat.sub_zero]
    exact List.getElem?_toArray.symm
  · rw [if_neg (by omega), if_neg inside, if_neg inside,
      Array.getElem?_eq_none (by simpa using inside)]

/-- Encoding answers the image, if there is one that fits into the address space. -/
theorem Renders.encode_eq_ok_iff {step : Nat → Writing Nat} {image : Outcome (List UInt8)}
    {size : Outcome Nat} (renders : Renders step image)
    (announced : ∀ bs, image = .ok bs → bs.length < addressSpace → size = .ok bs.length)
    {bytes : Bytes} :
    Writing.encode size step = .ok bytes ↔
      ∃ bs, image = .ok bs ∧ bs.length < addressSpace ∧ bytes = bs.toArray := by
  constructor
  · intro h
    obtain ⟨len, -, h⟩ := Outcome.bind_eq_ok.mp h
    cases hwrite : (step 0).run (Array.replicate len 0) with
    | error e buffer => simp [hwrite] at h
    | ok stop buffer =>
      simp only [hwrite] at h
      obtain ⟨bs, himage, rfl, spliced⟩ := renders.sound hwrite
      rw [Nat.zero_add] at h
      by_cases exact : bs.length = len
      · rw [if_pos exact] at h
        cases h
        subst exact
        rcases spliced with ⟨small, rfl⟩ | ⟨rfl, rfl⟩
        · exact ⟨bs, himage, by omega, splice_whole bs 0⟩
        · exact ⟨[], himage, by decide, rfl⟩
      · simp [if_neg exact] at h
  · rintro ⟨bs, himage, small, rfl⟩
    obtain ⟨after, hwrite⟩ := renders.total himage 0 (Array.replicate bs.length 0) (by omega)
    obtain ⟨bs', himage', _, spliced⟩ := renders.sound hwrite
    cases himage.symm.trans himage'
    rw [Nat.zero_add] at hwrite
    have written : after = bs.toArray := by
      rcases spliced with ⟨_, rfl⟩ | ⟨rfl, rfl⟩
      · exact splice_whole bs 0
      · rfl
    refine Outcome.bind_eq_ok.mpr ⟨_, announced bs himage small, ?_⟩
    simp only [hwrite, if_true, written]

end ByteSchema
