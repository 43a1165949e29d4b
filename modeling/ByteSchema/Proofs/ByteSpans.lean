import ByteSchema.Proofs.StepInversion

/-!
# Where a byte string stands in the input

`Spans` says that given bytes fill the input from an offset up to a stop.  All that is read lies in
a window, and the windows of consecutive parts put together are the window of the whole: this is
what reading and writing are compared by.
-/
namespace ByteSchema.Bytes

/-- A window ends inside the input and inside the address space. -/
theorem window_eq_ok_iff {bytes : Bytes} {offset len : Nat} {found : Bytes} :
    bytes.window offset len = .ok found ↔
      offset + len ≤ bytes.size ∧ offset + len < addressSpace ∧
        found = bytes.extract offset (offset + len) := by
  unfold window
  by_cases h : bytes.size - offset < len ∨ bytes.size < offset
  · rw [if_pos h]
    simp only [Outcome.fail_ne_ok, false_iff]
    omega
  · have fits : offset + len ≤ bytes.size := by omega
    rw [if_neg h, slice, Outcome.bind_eq_ok]
    simp only [checkedAdd_eq_ok_iff, fits, true_and]
    constructor
    · rintro ⟨_, ⟨inSpace, rfl⟩, hf⟩
      rw [if_pos fits] at hf
      cases hf
      exact ⟨inSpace, rfl⟩
    · rintro ⟨inSpace, rfl⟩
      exact ⟨_, ⟨inSpace, rfl⟩, if_pos fits⟩

/-- A window that goes beyond the input is refused with what is missing. -/
theorem window_of_lt {bytes : Bytes} {offset len : Nat} (short : bytes.size < offset + len) :
    bytes.window offset len = Outcome.fail (.endOfInput len offset (bytes.size - offset)) := by
  rw [window, if_pos (by omega)]

/-- `bs` fills `bytes` from `offset` up to `stop`.  Bytes that are there have addresses; where there
are none, the offset may lie anywhere inside. -/
structure Spans (bytes : Bytes) (offset : Nat) (bs : List UInt8) (stop : Nat) : Prop where
  stop_eq : stop = offset + bs.length
  inside : stop ≤ bytes.size
  room : stop = offset ∨ stop < addressSpace
  content : (bytes.extract offset stop).toList = bs

namespace Spans

variable {bytes : Bytes} {offset middle stop : Nat} {bs as : List UInt8}

theorem le (h : Spans bytes offset bs stop) : offset ≤ stop := by
  have := h.stop_eq
  omega

theorem length_lt (h : Spans bytes offset bs stop) : bs.length < addressSpace := by
  have := h.stop_eq
  have := h.room
  have : 0 < addressSpace := by decide
  omega

theorem nil (h : offset ≤ bytes.size) : Spans bytes offset [] offset :=
  ⟨rfl, h, .inl rfl, by simp⟩

/-- The stretch of the input between two offsets spans itself. -/
theorem extract (le : offset ≤ stop) (inside : stop ≤ bytes.size)
    (room : stop = offset ∨ stop < addressSpace) :
    Spans bytes offset (bytes.extract offset stop).toList stop := by
  refine ⟨?_, inside, room, rfl⟩
  simp only [Array.length_toList, Array.size_extract]
  omega

theorem append (h : Spans bytes offset as middle) (h' : Spans bytes middle bs stop) :
    Spans bytes offset (as ++ bs) stop := by
  have := h.stop_eq
  have := h'.stop_eq
  refine ⟨?_, h'.inside, ?_, ?_⟩
  · rw [List.length_append]
    omega
  · have := h.room
    have := h'.room
    omega
  · rw [← h.content, ← h'.content, ← Array.toList_append, Array.extract_append_extract,
      Nat.min_eq_left h.le, Nat.max_eq_right h'.le]

/-- A span of two parts is cut where the first one ends. -/
theorem of_append (h : Spans bytes offset (as ++ bs) stop) :
    ∃ middle, Spans bytes offset as middle ∧ Spans bytes middle bs stop := by
  have total := h.stop_eq
  have inside := h.inside
  have room := h.room
  rw [List.length_append] at total
  have cut : (bytes.extract offset (offset + as.length)).toList ++
      (bytes.extract (offset + as.length) stop).toList = as ++ bs := by
    rw [← h.content, ← Array.toList_append, Array.extract_append_extract,
      Nat.min_eq_left (by omega), Nat.max_eq_right (by omega)]
  have size : (bytes.extract offset (offset + as.length)).toList.length = as.length := by
    simp only [Array.length_toList, Array.size_extract]
    omega
  obtain ⟨first, second⟩ := List.append_inj cut size
  exact ⟨offset + as.length, ⟨rfl, by omega, by omega, first⟩, ⟨by omega, inside, by omega, second⟩⟩

theorem singleton {b : UInt8} (h : bytes[offset]? = some b) (small : offset + 1 < addressSpace) :
    Spans bytes offset [b] (offset + 1) := by
  obtain ⟨inside, _⟩ := Array.getElem?_eq_some_iff.mp h
  refine ⟨rfl, by omega, .inr small, ?_⟩
  apply List.ext_getElem?
  intro i
  rw [Array.getElem?_toList, Array.getElem?_extract]
  cases i with
  | zero => rw [if_pos (by omega), Nat.add_zero, h, List.getElem?_cons_zero]
  | succ i => rw [if_neg (by omega), List.getElem?_cons_succ, List.getElem?_nil]

theorem getElem? {b : UInt8} (h : Spans bytes offset (b :: bs) stop) : bytes[offset]? = some b := by
  have total := h.stop_eq
  have inside := h.inside
  rw [List.length_cons] at total
  have first := congrArg (·[0]?) h.content
  simpa [Array.getElem?_extract, show 0 < stop - offset by omega] using first

theorem cons {b : UInt8} (h : bytes[offset]? = some b) (tail : Spans bytes (offset + 1) bs stop)
    (small : stop < addressSpace) : Spans bytes offset (b :: bs) stop :=
  (singleton h (Nat.lt_of_le_of_lt tail.le small)).append tail

theorem tail {b : UInt8} (h : Spans bytes offset (b :: bs) stop) :
    Spans bytes (offset + 1) bs stop := by
  have cut : Spans bytes offset ([b] ++ bs) stop := h
  obtain ⟨middle, first, second⟩ := cut.of_append
  cases first.stop_eq
  exact second

/-- What spans a stretch is determined by its end. -/
theorem unique (h : Spans bytes offset as stop) (h' : Spans bytes offset bs stop) : as = bs :=
  h.content.symm.trans h'.content

/-- The window over a span that ends inside the address space. -/
theorem window (h : Spans bytes offset bs stop) (small : stop < addressSpace) :
    bytes.window offset bs.length = .ok bs.toArray := by
  have total := h.stop_eq
  have content := h.content
  refine window_eq_ok_iff.mpr ⟨total ▸ h.inside, total ▸ small, ?_⟩
  rw [← total, ← content, Array.toArray_toList]

end Spans

/-- A window is what spans the input there. -/
theorem window_spans {bytes : Bytes} {offset len : Nat} {found : Bytes}
    (h : bytes.window offset len = .ok found) :
    Spans bytes offset found.toList (offset + len) ∧ offset + len < addressSpace ∧
      found.size = len := by
  obtain ⟨inside, small, rfl⟩ := window_eq_ok_iff.mp h
  refine ⟨.extract (by omega) inside (.inr small), small, ?_⟩
  rw [Array.size_extract]
  omega

theorem spans_whole (bytes : Bytes) (small : bytes.size < addressSpace) :
    Spans bytes 0 bytes.toList bytes.size :=
  ⟨by simp, Nat.le_refl _, .inr small, by simp⟩

theorem spans_between (front bytes back : Bytes) (small : front.size + bytes.size < addressSpace) :
    Spans (front ++ bytes ++ back) front.size bytes.toList (front.size + bytes.size) := by
  refine ⟨by simp, ?_, .inr small, ?_⟩
  · rw [Array.size_append, Array.size_append]
    omega
  · simp [Array.extract_append]

end ByteSchema.Bytes
