import ByteSchema.Items
import ByteSchema.Proofs.ItemWalks
import ByteSchema.Proofs.SlotImages

/-!
# The bytes of items behind their count

How a single item is written, sized and read is a parameter, as it is for the items themselves; what
is needed of it is asked for the items at hand only.  A successful read of all items is a walk that
starts behind the image of their count.
-/
namespace ByteSchema.Items

open Bytes Reading

variable {α : Type}

/-- The bytes of a count and of the items that it counts. -/
def image (length : Length) (item : α → Outcome (List UInt8)) (items : List α) :
    Outcome (List UInt8) := do
  return (← length.image items.length) ++ (← imageAll item items)

variable {length : Length} {image : α → Outcome (List UInt8)} {items : List α} {bs : List UInt8}

theorem write_renders {step : Nat → α → Writing Nat}
    (h : ∀ a ∈ items, Renders (fun offset => step offset a) (image a)) :
    Renders (Items.write length step items) (Items.image length image items) :=
  (length.writeCount_renders items.length).seq (.fold h)

theorem size_eq_fixed_iff {item : Size} {n : Nat} :
    size length item = .fixed n ↔
      ∃ count bytes, length = .fixed count ∧ item = .fixed bytes ∧
        count * bytes < addressSpace ∧ n = count * bytes := by
  cases length with
  | fixed count =>
    cases item with
    | varying => simp [size, Size.times]
    | fixed bytes =>
      rw [size, Size.times]
      split <;> rename_i h <;> simp [h, eq_comm]
  | counted header => simp [size]
  | remainder => simp [size]

theorem pairSize_eq_fixed_iff {first second : Outcome Size} {n : Nat} :
    pairSize first second = .ok (.fixed n) ↔
      ∃ x y, first = .ok (.fixed x) ∧ second = .ok (.fixed y) ∧ x + y < addressSpace ∧
        n = x + y := by
  simp only [pairSize, Outcome.bind_eq_ok, Size.add_eq_fixed_iff]
  constructor
  · rintro ⟨_, hfirst, _, hsum, _, hsecond, x, y, rfl, rfl, small, rfl⟩
    obtain ⟨start, x', hstart, rfl, -, rfl⟩ := Size.add_eq_fixed_iff.mp hsum
    cases hstart
    rw [Nat.zero_add] at small ⊢
    exact ⟨x', y, hfirst, hsecond, small, rfl⟩
  · rintro ⟨x, y, rfl, rfl, small, rfl⟩
    have sum : (Size.fixed 0).add (.fixed x) = .ok (.fixed x) :=
      Size.add_eq_fixed_iff.mpr ⟨0, x, rfl, rfl, by omega, by omega⟩
    exact ⟨_, rfl, _, sum, _, rfl, x, y, rfl, rfl, small, rfl⟩

theorem length_imageAll {n : Nat} (h : imageAll image items = .ok bs)
    (each : ∀ a ∈ items, ∀ part, image a = .ok part → part.length = n) :
    bs.length = n * items.length := by
  induction items generalizing bs with
  | nil =>
    cases h
    simp
  | cons a items ih =>
    obtain ⟨part, rest, hpart, hrest, rfl⟩ := append_eq_ok_iff.mp h
    have tail := ih hrest fun b hb => each b (List.mem_cons_of_mem a hb)
    rw [List.length_append, each a List.mem_cons_self part hpart, tail, List.length_cons,
      Nat.mul_succ, Nat.add_comm]

theorem length_image_of_fixed {item : Size} {n : Nat} (size : size length item = .fixed n)
    (each : ∀ k, item = .fixed k → ∀ a ∈ items, ∀ part, image a = .ok part → part.length = k)
    (h : Items.image length image items = .ok bs) : bs.length = n := by
  obtain ⟨count, bytes, rfl, rfl, -, rfl⟩ := size_eq_fixed_iff.mp size
  obtain ⟨first, rest, hfirst, hrest, rfl⟩ := append_eq_ok_iff.mp h
  obtain ⟨_, hmatch, hfirst⟩ := Outcome.bind_eq_ok.mp hfirst
  cases hfirst
  rw [List.nil_append, length_imageAll hrest (each bytes rfl),
    Length.matchCount_eq_ok_iff.mp hmatch, Nat.mul_comm]

theorem encodeSize_of_fixed {item : Outcome Size} {add : Nat → α → Outcome Nat} {s : Size}
    {n m : Nat} (known : item = .ok s) (size : size length s = .fixed n)
    (h : encodeSize length item add items = .ok m) : m = n := by
  obtain ⟨count, bytes, rfl, rfl, -, rfl⟩ := size_eq_fixed_iff.mp size
  subst known
  obtain ⟨_, hcount, h⟩ := Outcome.bind_eq_ok.mp h
  obtain ⟨_, hmatch, hcount⟩ := Outcome.bind_eq_ok.mp hcount
  cases hcount
  have hsum : (do checkedAdd 0 (← checkedMul bytes items.length)) = .ok m := h
  obtain ⟨_, hproduct, hsum⟩ := Outcome.bind_eq_ok.mp hsum
  obtain ⟨-, rfl⟩ := checkedMul_eq_ok_iff.mp hproduct
  obtain ⟨-, rfl⟩ := checkedAdd_eq_ok_iff.mp hsum
  rw [Nat.zero_add, Length.matchCount_eq_ok_iff.mp hmatch, Nat.mul_comm]

private theorem foldlM_add {add : Nat → α → Outcome Nat}
    (hadd : ∀ a ∈ items, ∀ sum part, image a = .ok part → sum + part.length < addressSpace →
      add sum a = .ok (sum + part.length))
    (sum : Nat) (h : imageAll image items = .ok bs) (small : sum + bs.length < addressSpace) :
    items.foldlM add sum = .ok (sum + bs.length) := by
  induction items generalizing sum bs with
  | nil =>
    cases h
    rfl
  | cons a items ih =>
    obtain ⟨part, rest, hpart, hrest, rfl⟩ := append_eq_ok_iff.mp h
    rw [List.length_append] at small ⊢
    have first := hadd a List.mem_cons_self sum part hpart (by omega)
    have tail := ih (fun b hb => hadd b (List.mem_cons_of_mem a hb)) (sum + part.length) hrest
      (by omega)
    rw [List.foldlM_cons, first, ← Nat.add_assoc]
    exact tail

/-- The announced size is the length of the image, whether the items are looked at or counted. -/
theorem encodeSize_of_image {item : Outcome Size} {add : Nat → α → Outcome Nat} {s : Size}
    (known : item = .ok s)
    (each : ∀ k, s = .fixed k → ∀ a ∈ items, ∀ part, image a = .ok part → part.length = k)
    (hadd : ∀ a ∈ items, ∀ sum part, image a = .ok part → sum + part.length < addressSpace →
      add sum a = .ok (sum + part.length))
    (h : Items.image length image items = .ok bs) (small : bs.length < addressSpace) :
    encodeSize length item add items = .ok bs.length := by
  subst known
  obtain ⟨count, rest, hcount, hrest, rfl⟩ := append_eq_ok_iff.mp h
  rw [List.length_append] at small ⊢
  have first := Length.countSize_of_image hcount (by omega)
  refine Outcome.bind_eq_ok.mpr ⟨_, first, Outcome.bind_eq_ok.mpr ⟨s, rfl, ?_⟩⟩
  cases s with
  | fixed k =>
    have total := length_imageAll hrest (each k rfl)
    refine Outcome.bind_eq_ok.mpr ⟨_, checkedMul_eq_ok_iff.mpr ⟨by omega, rfl⟩, ?_⟩
    exact checkedAdd_eq_ok_iff.mpr ⟨by omega, by omega⟩
  | varying => exact foldlM_add hadd _ hrest small

theorem read_fixed (n : Nat) (limit : Limit) (size : Outcome Size)
    (item : Nat → Reading (α × Nat)) (bytes : Bytes) (offset : Nat) :
    Items.read (.fixed n) limit size item bytes offset =
      (liftM size : Reading Size) >>= fun _ => times item n offset := rfl

theorem read_counted (header : Header) (limit : Limit) (size : Outcome Size)
    (item : Nat → Reading (α × Nat)) (bytes : Bytes) (offset : Nat) :
    Items.read (.counted header) limit size item bytes offset =
      header.readCount bytes offset >>= fun r =>
        (liftM (limit.check r.1) : Reading Unit) >>= fun _ =>
          (liftM size : Reading Size) >>= fun _ => times item r.1 r.2 := by
  simp only [Items.read, Length.readCount, bind_assoc, pure_bind]

theorem read_remainder (limit : Limit) (size : Outcome Size)
    (item : Nat → Reading (α × Nat)) (bytes : Bytes) (offset : Nat) :
    Items.read .remainder limit size item bytes offset =
      (liftM (bytes.rest offset) : Reading Bytes) >>= fun rest =>
        (liftM size : Reading Size) >>= fun s =>
          match s with
          | .fixed n =>
            if 0 < n ∧ rest.size % n ≠ 0 then Reading.fail (.misaligned rest.size n)
            else toEnd item bytes.size offset
          | .varying => toEnd item bytes.size offset := rfl

/-- Items of a size that is known are walked over, as many as there are to be. -/
private theorem counted_eq_ok_iff {size : Outcome Size} {item : Nat → Reading (α × Nat)}
    {n offset stop : Nat} {log : List Event} :
    ((liftM size : Reading Size) >>= fun _ => times item n offset) = ⟨log, .ok (items, stop)⟩ ↔
      (∃ s, size = .ok s) ∧ items.length = n ∧
        Walk item (fun _ _ => True) offset items stop log := by
  rw [bind_eq_ok]
  constructor
  · rintro ⟨_, s, _, hsize, hloop, rfl⟩
    obtain ⟨known, rfl⟩ := lift_eq_ok.mp hsize
    exact ⟨⟨s, known⟩, times_eq_ok_iff.mp hloop⟩
  · rintro ⟨⟨s, known⟩, walk⟩
    exact ⟨[], s, log, lift_eq_ok.mpr ⟨known, rfl⟩, times_eq_ok_iff.mpr walk, rfl⟩

theorem read_fixed_eq_ok_iff {limit : Limit} {size : Outcome Size}
    {item : Nat → Reading (α × Nat)} {bytes : Bytes} {n offset stop : Nat} {log : List Event} :
    Items.read (.fixed n) limit size item bytes offset = ⟨log, .ok (items, stop)⟩ ↔
      (∃ s, size = .ok s) ∧ items.length = n ∧
        Walk item (fun _ _ => True) offset items stop log := by
  rw [read_fixed, counted_eq_ok_iff]

/-- Behind a count that passes the limits, as many items are walked over. -/
theorem read_counted_eq_ok_iff {header : Header} {limit : Limit} {size : Outcome Size}
    {item : Nat → Reading (α × Nat)} {bytes : Bytes} {offset stop : Nat} {log : List Event} :
    Items.read (.counted header) limit size item bytes offset = ⟨log, .ok (items, stop)⟩ ↔
      (∃ s, size = .ok s) ∧
        ∃ start, header.readCount bytes offset = ⟨[], .ok (items.length, start)⟩ ∧
          limit.contains items.length = true ∧
            Walk item (fun _ _ => True) start items stop log := by
  simp only [read_counted, bind_eq_ok (x := header.readCount bytes offset),
    bind_eq_ok (x := liftM (limit.check _)), lift_eq_ok, Limit.check_eq_ok_iff, Prod.exists,
    counted_eq_ok_iff]
  constructor
  · rintro ⟨_, n, start, _, hheader, ⟨_, _, _, ⟨within, rfl⟩, ⟨known, rfl, walk⟩, rfl⟩, rfl⟩
    obtain ⟨rfl, -⟩ := header.readCount_counts.mp hheader
    exact ⟨known, start, hheader, within, walk⟩
  · rintro ⟨known, start, hheader, within, walk⟩
    exact ⟨[], _, start, log, hheader, ⟨[], (), log, ⟨within, rfl⟩, ⟨known, rfl, walk⟩, rfl⟩, rfl⟩

/-- Without a count the items go on to the end, and are a whole number of them if all have one
size. -/
theorem read_remainder_eq_ok_iff {limit : Limit} {size : Outcome Size}
    {item : Nat → Reading (α × Nat)} {bytes : Bytes} {offset stop : Nat} {log : List Event} :
    Items.read .remainder limit size item bytes offset = ⟨log, .ok (items, stop)⟩ ↔
      offset ≤ bytes.size ∧ bytes.size < addressSpace ∧
        (∃ s, size = .ok s ∧ ∀ k, s = .fixed k → 0 < k → (bytes.size - offset) % k = 0) ∧
        toEnd item bytes.size offset = ⟨log, .ok (items, stop)⟩ := by
  rw [read_remainder]
  constructor
  · intro h
    obtain ⟨_, rest, _, hrest, hbody, rfl⟩ := bind_eq_ok.mp h
    obtain ⟨_, s, m, hsize, hloop, rfl⟩ := bind_eq_ok.mp hbody
    obtain ⟨hwindow, rfl⟩ := lift_eq_ok.mp hrest
    obtain ⟨rfl, rfl⟩ := lift_eq_ok.mp hsize
    obtain ⟨inside, small, -⟩ := window_eq_ok_iff.mp hwindow
    refine ⟨by omega, by omega, ⟨s, rfl, ?_⟩, ?_⟩
    · rintro k rfl positive
      by_contra misaligned
      rw [← (window_spans hwindow).2.2] at misaligned
      simp [positive, misaligned] at hloop
    · rw [List.nil_append, List.nil_append]
      cases s with
      | varying => exact hloop
      | fixed k =>
        by_cases misaligned : 0 < k ∧ rest.size % k ≠ 0
        · simp [misaligned] at hloop
        · simpa only [if_neg misaligned] using hloop
  · rintro ⟨inside, small, ⟨s, rfl, aligned⟩, loop⟩
    have hrest : bytes.rest offset = .ok (bytes.extract offset bytes.size) := by
      refine window_eq_ok_iff.mpr ⟨by omega, by omega, ?_⟩
      rw [Nat.add_sub_of_le inside]
    have size : (bytes.extract offset bytes.size).size = bytes.size - offset := by
      rw [Array.size_extract, Nat.min_self]
    refine bind_eq_ok.mpr ⟨[], _, log, lift_eq_ok.mpr ⟨hrest, rfl⟩, ?_, rfl⟩
    refine bind_eq_ok.mpr ⟨[], s, log, lift_eq_ok.mpr ⟨rfl, rfl⟩, ?_, rfl⟩
    cases s with
    | varying => exact loop
    | fixed k =>
      have whole : ¬ (0 < k ∧ (bytes.extract offset bytes.size).size % k ≠ 0) := by
        rintro ⟨positive, misaligned⟩
        exact misaligned (size ▸ aligned k rfl positive)
      simp only [if_neg whole]
      exact loop

theorem toEnd_of_read_remainder {limit : Limit} {size : Outcome Size}
    {item : Nat → Reading (α × Nat)} {bytes : Bytes} {offset stop : Nat} {log : List Event}
    (h : Items.read .remainder limit size item bytes offset = ⟨log, .ok (items, stop)⟩) :
    toEnd item bytes.size offset = ⟨log, .ok (items, stop)⟩ :=
  (read_remainder_eq_ok_iff.mp h).2.2.2

/-- Reading the items is a walk that starts behind their count, or at the offset if there is
none. -/
theorem walk_from_count {limit : Limit} {size : Outcome Size} {item : Nat → Reading (α × Nat)}
    {bytes : Bytes} {offset stop : Nat} {log : List Event}
    (h : Items.read length limit size item bytes offset = ⟨log, .ok (items, stop)⟩) :
    ∃ count start, length.image items.length = .ok count ∧
      (Spans bytes offset count start ∨ (count = [] ∧ start = offset)) ∧
      Walk item (fun _ _ => True) start items stop log := by
  cases length with
  | fixed n =>
    obtain ⟨-, rfl, walk⟩ := read_fixed_eq_ok_iff.mp h
    have hmatch : Length.matchCount items.length items.length = .ok () :=
      Length.matchCount_eq_ok_iff.mpr rfl
    exact ⟨[], offset, Outcome.bind_eq_ok.mpr ⟨_, hmatch, rfl⟩, .inr ⟨rfl, rfl⟩, walk⟩
  | counted header =>
    obtain ⟨-, start, hheader, -, walk⟩ := read_counted_eq_ok_iff.mp h
    obtain ⟨-, -, -, count, hcount, spans, -⟩ := header.readCount_counts.mp hheader
    exact ⟨count, start, hcount, .inl spans, walk⟩
  | remainder =>
    obtain ⟨-, -, walk⟩ := toEnd_eq_ok_iff.mp (toEnd_of_read_remainder h)
    exact ⟨[], offset, rfl, .inr ⟨rfl, rfl⟩, walk.mono fun _ _ _ => trivial⟩

theorem walk_of_read {limit : Limit} {size : Outcome Size} {item : Nat → Reading (α × Nat)}
    {bytes : Bytes} {offset stop : Nat} {log : List Event} (inside : offset ≤ bytes.size)
    (h : Items.read length limit size item bytes offset = ⟨log, .ok (items, stop)⟩) :
    ∃ count start, length.image items.length = .ok count ∧ Spans bytes offset count start ∧
      Walk item (fun _ _ => True) start items stop log := by
  obtain ⟨count, start, hcount, spans | ⟨rfl, rfl⟩, walk⟩ := walk_from_count h
  · exact ⟨count, start, hcount, spans, walk⟩
  · exact ⟨[], start, hcount, .nil inside, walk⟩

/-- Items that each stand where their image does make up the image of all of them. -/
theorem imageAll_of_walk {item : Nat → Reading (α × Nat)} {step : Nat → Nat → Prop}
    {good : Event → Prop} {bytes : Bytes} {offset stop : Nat} {log : List Event}
    (walk : Walk item step offset items stop log) (events : ∀ e ∈ log, good e)
    (inside : offset ≤ bytes.size)
    (each : ∀ {l x a b}, item a = ⟨l, .ok (x, b)⟩ → (∀ e ∈ l, good e) → a ≤ bytes.size →
      ∃ bs, image x = .ok bs ∧ Spans bytes a bs b) :
    ∃ bs, imageAll image items = .ok bs ∧ Spans bytes offset bs stop := by
  induction walk with
  | nil offset => exact ⟨[], rfl, .nil inside⟩
  | cons head moves tail ih =>
    obtain ⟨first, hfirst, spans⟩ :=
      each head (fun e he => events e (List.mem_append_left _ he)) inside
    obtain ⟨rest, hrest, spans'⟩ :=
      ih (fun e he => events e (List.mem_append_right _ he)) spans.inside
    exact ⟨first ++ rest, append_eq_ok_iff.mpr ⟨first, rest, hfirst, hrest, rfl⟩,
      spans.append spans'⟩

/-- Items that take a fixed number of bytes each are read up to a fixed offset. -/
theorem stop_of_fixed {limit : Limit} {size : Outcome Size} {item : Nat → Reading (α × Nat)}
    {bytes : Bytes} {offset stop : Nat} {log : List Event} {s : Size} {n : Nat}
    (fixed : Items.size length s = .fixed n)
    (each : ∀ k, s = .fixed k → ∀ {l x a b}, item a = ⟨l, .ok (x, b)⟩ → b = a + k)
    (h : Items.read length limit size item bytes offset = ⟨log, .ok (items, stop)⟩) :
    stop = offset + n := by
  obtain ⟨count, k, rfl, rfl, -, rfl⟩ := size_eq_fixed_iff.mp fixed
  obtain ⟨-, rfl, walk⟩ := read_fixed_eq_ok_iff.mp h
  rw [walk.stop_eq (each k rfl), Nat.mul_comm]

/-- A walk behind the image of the count is read back.  Items without a count have to take
something each, go on to the end of the input, and be of the size that is announced for them. -/
private theorem read_of_walk {limit : Limit} {s : Size} {item : Nat → Reading (α × Nat)}
    {step : Nat → Nat → Prop} {bytes : Bytes} {offset start stop : Nat} {count : List UInt8}
    {log : List Event} (hcount : length.image items.length = .ok count)
    (admits : length.Admits limit items.length) (fits : items.length < addressSpace)
    (spans : Spans bytes offset count start) (walk : Walk item step start items stop log)
    (le : start ≤ stop) (small : stop < addressSpace)
    (uncounted : length = .remainder → stop = bytes.size ∧ (∀ a b, step a b → a < b) ∧
      ∀ k, s = .fixed k → stop = start + k * items.length) :
    Items.read length limit (.ok s) item bytes offset = ⟨log, .ok (items, stop)⟩ := by
  have counted : Walk item (fun _ _ => True) start items stop log :=
    walk.mono fun _ _ _ => trivial
  cases length with
  | fixed n =>
    obtain ⟨_, hmatch, hcount⟩ := Outcome.bind_eq_ok.mp hcount
    cases hcount
    cases spans.stop_eq
    exact read_fixed_eq_ok_iff.mpr
      ⟨⟨s, rfl⟩, (Length.matchCount_eq_ok_iff.mp hmatch).symm, counted⟩
  | counted header =>
    have hheader := header.readCount_counts.mpr ⟨rfl, fits, admits.2, count, hcount, spans,
      Nat.lt_of_le_of_lt le small⟩
    exact read_counted_eq_ok_iff.mpr ⟨⟨s, rfl⟩, start, hheader, admits.1, counted⟩
  | remainder =>
    cases hcount
    have here : start = offset := spans.stop_eq
    subst here
    obtain ⟨rfl, forward, sizes⟩ := uncounted rfl
    have few := walk.length_le forward
    have loop : toEnd item bytes.size start = ⟨log, .ok (items, bytes.size)⟩ :=
      toEnd_eq_ok_iff.mpr ⟨by omega, Nat.le_refl _, walk.before_stop forward⟩
    refine read_remainder_eq_ok_iff.mpr ⟨le, small, ⟨s, rfl, fun k fixed _ => ?_⟩, loop⟩
    rw [sizes k fixed, Nat.add_sub_cancel_left, Nat.mul_mod_right]

/-- Items that are read where their images stand are walked over where the image of all stands, and
report no more than each of them does. -/
theorem walk_of_image {item : Nat → Reading (α × Nat)} {good : Event → Prop} {bytes : Bytes}
    {offset stop : Nat} (h : imageAll image items = .ok bs) (spans : Spans bytes offset bs stop)
    (small : stop < addressSpace)
    (each : ∀ a ∈ items, ∀ {part start stop}, image a = .ok part → Spans bytes start part stop →
      stop < addressSpace → ∃ log, item start = ⟨log, .ok (a, stop)⟩ ∧ ∀ e ∈ log, good e) :
    ∃ log, Walk item (fun start stop => ∃ a ∈ items, ∃ part, image a = .ok part ∧
      Spans bytes start part stop) offset items stop log ∧ ∀ e ∈ log, good e := by
  induction items generalizing offset bs with
  | nil =>
    cases h
    cases spans.stop_eq
    exact ⟨[], .nil _, by simp⟩
  | cons a items ih =>
    obtain ⟨part, rest, hpart, hrest, rfl⟩ := append_eq_ok_iff.mp h
    obtain ⟨middle, first, second⟩ := spans.of_append
    obtain ⟨l, head, reported⟩ :=
      each a List.mem_cons_self hpart first (Nat.lt_of_le_of_lt second.le small)
    obtain ⟨m, tail, reported'⟩ := ih hrest second fun b hb => each b (List.mem_cons_of_mem a hb)
    refine ⟨l ++ m, .cons head ⟨a, List.mem_cons_self, part, hpart, first⟩ (tail.mono ?_), ?_⟩
    · rintro _ _ ⟨b, hb, found⟩
      exact ⟨b, List.mem_cons_of_mem a hb, found⟩
    · intro e he
      exact (List.mem_append.mp he).elim (reported e) (reported' e)

/-- Items that come back behind their count: it passes the limits, and where there is none each item
takes something. -/
structure Readable (length : Length) (limit : Limit) (size : α → Outcome Nat) (items : List α) :
    Prop where
  fits : items.length < addressSpace
  admits : length.Admits limit items.length
  nonempty : length = .remainder → ∀ a ∈ items, ∀ n, size a = .ok n → 0 < n

/-- Items are read back from their image; without a count it has to be the end of the input. -/
theorem read_of_image {limit : Limit} {size : Outcome Size} {s : Size}
    {itemSize : α → Outcome Nat} {item : Nat → Reading (α × Nat)} {bytes : Bytes}
    {offset stop : Nat} (h : Items.image length image items = .ok bs)
    (readable : Readable length limit itemSize items) (spans : Spans bytes offset bs stop)
    (small : stop < addressSpace) (last : length = .remainder → stop = bytes.size)
    (known : size = .ok s)
    (fixed : ∀ k, s = .fixed k → ∀ a ∈ items, ∀ part, image a = .ok part → part.length = k)
    (sizes : ∀ a ∈ items, ∀ {part}, image a = .ok part → part.length < addressSpace →
      itemSize a = .ok part.length)
    (each : ∀ a ∈ items, ∀ {part start stop}, image a = .ok part → Spans bytes start part stop →
      stop < addressSpace → item start = ⟨[], .ok (a, stop)⟩) :
    Items.read length limit size item bytes offset = ⟨[], .ok (items, stop)⟩ := by
  obtain ⟨count, rest, hcount, hrest, rfl⟩ := append_eq_ok_iff.mp h
  obtain ⟨start, first, second⟩ := spans.of_append
  have silent : ∀ a ∈ items, ∀ {part start stop}, image a = .ok part → Spans bytes start part stop →
      stop < addressSpace → ∃ log, item start = ⟨log, .ok (a, stop)⟩ ∧ ∀ e ∈ log, False :=
    fun a ha _ _ _ hpart found fits => ⟨[], each a ha hpart found fits, by simp⟩
  obtain ⟨log, walk, nothing⟩ := walk_of_image hrest second small silent
  obtain rfl := List.eq_nil_iff_forall_not_mem.mpr nothing
  subst known
  refine read_of_walk hcount readable.admits readable.fits first walk second.le small ?_
  intro uncounted
  refine ⟨last uncounted, ?_, ?_⟩
  · rintro a b ⟨x, hx, part, hpart, found⟩
    have taken := readable.nonempty uncounted x hx _ (sizes x hx hpart found.length_lt)
    have := found.stop_eq
    omega
  · intro k hk
    rw [second.stop_eq, length_imageAll hrest (fixed k hk)]

end ByteSchema.Items
