import ByteSchema.Proofs.ItemCounts

/-!
# Images that fit where something was read

What is read need not be written as it was: pairs may have been dropped, and then counts and lengths
in front are smaller, and take no more bytes.  A smaller number passes the limits, too, if these let
every smaller number pass.
-/
namespace ByteSchema

open Bytes Reading

/-- `bs` is no longer than the stretch between two offsets, and empty only if that is. -/
structure FitsIn (bs : List UInt8) (offset stop : Nat) : Prop where
  le : offset + bs.length ≤ stop
  some : offset < stop → bs ≠ []
  room : offset < stop → stop < addressSpace

def Fits (image : Outcome (List UInt8)) (offset stop : Nat) : Prop :=
  ∃ bs, image = .ok bs ∧ FitsIn bs offset stop

section

variable {x y : Outcome (List UInt8)} {bytes : Bytes} {offset middle stop : Nat} {bs : List UInt8}

theorem FitsIn.length_lt (h : FitsIn bs offset stop) : bs.length < addressSpace := by
  have := h.le
  by_cases forward : offset < stop
  · have := h.room forward
    omega
  · have : 0 < addressSpace := by decide
    omega

/-- Behind something that is not empty it does not matter whether anything follows. -/
theorem FitsIn.append {rest : List UInt8} (h : FitsIn bs offset middle) (some : bs ≠ [])
    (le : middle + rest.length ≤ stop) (room : middle < stop → stop < addressSpace) :
    FitsIn (bs ++ rest) offset stop where
  le := by
    have := h.le
    rw [List.length_append]
    omega
  some _ := List.append_ne_nil_of_left_ne_nil some rest
  room forward := by
    by_cases start : middle < stop
    · exact room start
    · have := h.room (by omega)
      omega

theorem Fits.le (h : Fits x offset stop) : offset ≤ stop := by
  obtain ⟨bs, -, fits⟩ := h
  have := fits.le
  omega

theorem Fits.nil (offset : Nat) : Fits (.ok []) offset offset := by
  refine ⟨[], rfl, Nat.le_refl _, fun forward => ?_, fun forward => ?_⟩
  · exact absurd forward (Nat.lt_irrefl offset)
  · exact absurd forward (Nat.lt_irrefl offset)

theorem Fits.of_spans (h : x = .ok bs) (spans : Spans bytes offset bs stop) :
    Fits x offset stop := by
  have total := spans.stop_eq
  refine ⟨bs, h, Nat.le_of_eq total.symm, fun forward => ?_, fun forward => ?_⟩
  · apply List.ne_nil_of_length_pos
    omega
  · have := spans.room
    omega

theorem Fits.append (h : Fits x offset middle) (h' : Fits y middle stop) :
    Fits (do return (← x) ++ (← y)) offset stop := by
  have := h.le
  have := h'.le
  obtain ⟨first, hfirst, fits⟩ := h
  obtain ⟨second, hsecond, fits'⟩ := h'
  refine ⟨first ++ second, append_eq_ok_iff.mpr ⟨first, second, hfirst, hsecond, rfl⟩, ?_, ?_, ?_⟩
  · have := fits.le
    have := fits'.le
    rw [List.length_append]
    omega
  · intro forward
    by_cases start : offset < middle
    · exact List.append_ne_nil_of_left_ne_nil (fits.some start) second
    · exact List.append_ne_nil_of_right_ne_nil first (fits'.some (by omega))
  · intro forward
    by_cases start : middle < stop
    · exact fits'.room start
    · have := fits.room (by omega)
      omega

end

/-- Every range starts at zero or below, and no smaller number needs more bytes. -/
theorem IntFormat.image_of_le {format : IntFormat} {m n : Nat} {bs : List UInt8}
    (h : format.image n = .ok bs) (le : m ≤ n) :
    ∃ bs', format.image m = .ok bs' ∧ bs'.length ≤ bs.length := by
  obtain ⟨_, range, h⟩ := Outcome.bind_eq_ok.mp h
  obtain ⟨-, high⟩ := checkRange_eq_ok_iff.mp range
  have zero : format.min ≤ 0 := by
    cases format with
    | word signed width order =>
      cases signed with
      | true =>
        rw [min]
        omega
      | false => exact Int.le_refl 0
    | compact => exact Int.le_refl 0
  have range' : format.checkRange m = .ok () := checkRange_eq_ok_iff.mpr ⟨by omega, by omega⟩
  cases format with
  | word signed width order =>
    cases h
    refine ⟨_, Outcome.bind_eq_ok.mpr ⟨_, range', rfl⟩, ?_⟩
    rw [length_wordBytes, length_wordBytes]
  | compact =>
    cases h
    refine ⟨_, Outcome.bind_eq_ok.mpr ⟨_, range', rfl⟩, ?_⟩
    rw [Compact.length_groups, Compact.length_groups]
    exact Compact.size_mono le

/-- With every length a limit lets the smaller ones pass. -/
def Limit.DownwardClosed (limit : Limit) : Prop :=
  ∀ m n, m ≤ n → n < addressSpace → limit.contains n = true → limit.contains m = true

namespace Header

/-- All limits inside a header let smaller numbers pass. -/
def DownwardClosed : Header → Prop
  | plain _ => True
  | framed inner header limit =>
    inner.DownwardClosed ∧ header.DownwardClosed ∧ limit.DownwardClosed

/-- A smaller number takes no more bytes, at any depth of the lengths in front of it. -/
theorem image_of_le {header : Header} {m n : Nat} {bs : List UInt8}
    (closed : header.DownwardClosed) (h : header.image n = .ok bs)
    (small : bs.length < addressSpace) (admits : header.Admits n) (le : m ≤ n) :
    ∃ bs', header.image m = .ok bs' ∧ bs'.length ≤ bs.length ∧ header.Admits m := by
  induction header generalizing m n bs with
  | plain format =>
    obtain ⟨bs', himage, shorter⟩ := IntFormat.image_of_le h le
    exact ⟨bs', himage, shorter, trivial⟩
  | framed inner header limit hinner hheader =>
    obtain ⟨closedInner, closedHeader, closedLimit⟩ := closed
    obtain ⟨payload, outer, hpayload, houter, rfl⟩ := Frame.image_eq_ok_iff.mp h
    rw [List.length_append] at small
    obtain ⟨admitsInner, admitted⟩ := admits
    obtain ⟨within, admitsHeader⟩ := admitted _ (encodeSize_of_image hpayload (by omega))
    obtain ⟨payload', hpayload', shorter, admitsInner'⟩ :=
      hinner closedInner hpayload (by omega) admitsInner le
    obtain ⟨outer', houter', shorter', admitsHeader'⟩ :=
      hheader closedHeader houter (by omega) admitsHeader shorter
    refine ⟨outer' ++ payload', ?_, ?_, admitsInner', fun len hlen => ?_⟩
    · exact Frame.image_eq_ok_iff.mpr ⟨payload', outer', hpayload', houter', rfl⟩
    · rw [List.length_append, List.length_append]
      omega
    · rw [encodeSize_of_image hpayload' (by omega)] at hlen
      cases hlen
      exact ⟨closedLimit _ _ shorter (by omega) within, admitsHeader'⟩

/-- Where the image of a number stands, that of every smaller number fits. -/
theorem fits_of_le {header : Header} {m n : Nat} {bytes : Bytes} {offset stop : Nat}
    {bs : List UInt8} (closed : header.DownwardClosed) (h : header.image n = .ok bs)
    (spans : Spans bytes offset bs stop) (admits : header.Admits n) (le : m ≤ n) :
    header.Admits m ∧ ∃ bs', header.image m = .ok bs' ∧ bs' ≠ [] ∧ FitsIn bs' offset stop := by
  obtain ⟨bs', himage, shorter, admits'⟩ := image_of_le closed h spans.length_lt admits le
  have total := spans.stop_eq
  have room := spans.room
  have some := image_ne_nil himage
  exact ⟨admits', bs', himage, some, by omega, fun _ => some, by omega⟩

end Header

/-- With every count that is let pass the smaller ones are, and a fixed count is an address. -/
def Length.DownwardClosed (length : Length) (limit : Limit) : Prop :=
  match length with
  | fixed n => n < addressSpace
  | counted header => limit.DownwardClosed ∧ header.DownwardClosed
  | remainder => True

namespace Items

variable {α : Type} {image : α → Outcome (List UInt8)} {items entries : List α} {bs : List UInt8}

private theorem imageAll_of_sublist (h : imageAll image items = .ok bs)
    (sublist : entries.Sublist items) :
    ∃ bs', imageAll image entries = .ok bs' ∧ bs'.length ≤ bs.length := by
  induction sublist generalizing bs with
  | slnil => exact ⟨bs, h, Nat.le_refl _⟩
  | cons a _ ih =>
    obtain ⟨part, rest, hpart, hrest, rfl⟩ := append_eq_ok_iff.mp h
    obtain ⟨bs', himage, shorter⟩ := ih hrest
    refine ⟨bs', himage, ?_⟩
    rw [List.length_append]
    omega
  | cons_cons a _ ih =>
    obtain ⟨part, rest, hpart, hrest, rfl⟩ := append_eq_ok_iff.mp h
    obtain ⟨bs', himage, shorter⟩ := ih hrest
    refine ⟨part ++ bs', append_eq_ok_iff.mpr ⟨part, bs', hpart, himage, rfl⟩, ?_⟩
    rw [List.length_append, List.length_append]
    omega

private theorem imageAll_of_perm (h : imageAll image items = .ok bs) (perm : items.Perm entries) :
    ∃ bs', imageAll image entries = .ok bs' ∧ bs'.length = bs.length := by
  induction perm generalizing bs with
  | nil => exact ⟨bs, h, rfl⟩
  | cons a _ ih =>
    obtain ⟨part, rest, hpart, hrest, rfl⟩ := append_eq_ok_iff.mp h
    obtain ⟨bs', himage, same⟩ := ih hrest
    refine ⟨part ++ bs', append_eq_ok_iff.mpr ⟨part, bs', hpart, himage, rfl⟩, ?_⟩
    rw [List.length_append, List.length_append, same]
  | swap a b as =>
    obtain ⟨first, front, hfirst, hfront, rfl⟩ := append_eq_ok_iff.mp h
    obtain ⟨second, rest, hsecond, hrest, rfl⟩ := append_eq_ok_iff.mp hfront
    have behind : imageAll image (b :: as) = .ok (first ++ rest) :=
      append_eq_ok_iff.mpr ⟨first, rest, hfirst, hrest, rfl⟩
    refine ⟨second ++ (first ++ rest), ?_, ?_⟩
    · exact append_eq_ok_iff.mpr ⟨second, _, hsecond, behind, rfl⟩
    · simp only [List.length_append]
      omega
  | trans _ _ ih ih' =>
    obtain ⟨bs', himage, same⟩ := ih h
    obtain ⟨bs'', himage', same'⟩ := ih' himage
    exact ⟨bs'', himage', same'.trans same⟩

/-- Some of the items, in any order, take no more than all of them. -/
theorem imageAll_of_subperm (h : imageAll image items = .ok bs) (some : entries.Subperm items) :
    ∃ bs', imageAll image entries = .ok bs' ∧ bs'.length ≤ bs.length := by
  obtain ⟨chosen, perm, sublist⟩ := some
  obtain ⟨bs', himage, shorter⟩ := imageAll_of_sublist h sublist
  obtain ⟨bs'', himage', same⟩ := imageAll_of_perm himage perm
  exact ⟨bs'', himage', by omega⟩

theorem fits_of_walk {item : Nat → Reading (α × Nat)} {step : Nat → Nat → Prop}
    {offset stop : Nat} {log : List Event} (walk : Walk item step offset items stop log)
    (each : ∀ {l x a b}, item a = ⟨l, .ok (x, b)⟩ → Fits (image x) a b) :
    Fits (imageAll image items) offset stop := by
  induction walk with
  | nil offset => exact .nil offset
  | cons head moves tail ih => exact (each head).append ih

/-- What may be left of items that were read: every one of a fixed number of them, else some of
them in any order, and one at least if there were any. -/
structure Remnant (length : Length) (items entries : List α) : Prop where
  among : entries.Subperm items
  some : items ≠ [] → entries ≠ []
  whole : ∀ n, length = .fixed n → entries = items

theorem Remnant.refl (length : Length) (items : List α) : Remnant length items items where
  among := .refl items
  some := id
  whole _ _ := rfl

variable {length : Length} {limit : Limit} {size : Outcome Size} {item : Nat → Reading (α × Nat)}
  {itemSize : α → Outcome Nat} {bytes : Bytes} {offset stop : Nat} {log : List Event}

/-- What is left of the items is read back behind its own count, and takes no more than they did. -/
theorem fits_of_read (closed : length.DownwardClosed limit)
    (h : Items.read length limit size item bytes offset = ⟨log, .ok (items, stop)⟩)
    (remnant : Remnant length items entries)
    (each : ∀ {l x a b}, item a = ⟨l, .ok (x, b)⟩ → Fits (image x) a b)
    (sizes : ∀ {x part}, image x = .ok part → part.length < addressSpace →
      itemSize x = .ok part.length) :
    Readable length limit itemSize entries ∧
      Fits (Items.image length image entries) offset stop := by
  have fewer := remnant.among.length_le
  cases length with
  | fixed n =>
    obtain ⟨-, rfl, walk⟩ := read_fixed_eq_ok_iff.mp h
    cases remnant.whole _ rfl
    have hmatch : Length.matchCount items.length items.length = .ok () :=
      Length.matchCount_eq_ok_iff.mpr rfl
    have count : Length.image (.fixed items.length) items.length = .ok [] :=
      Outcome.bind_eq_ok.mpr ⟨_, hmatch, rfl⟩
    refine ⟨⟨closed, trivial, fun uncounted => by cases uncounted⟩, ?_⟩
    rw [Items.image, count]
    exact (Fits.nil offset).append (fits_of_walk walk each)
  | counted header =>
    obtain ⟨closedLimit, closedHeader⟩ := closed
    obtain ⟨-, start, hheader, within, walk⟩ := read_counted_eq_ok_iff.mp h
    obtain ⟨-, small, admits, bs, himage, spans, -⟩ := header.readCount_counts.mp hheader
    obtain ⟨admits', outer, houter, some, first⟩ :=
      Header.fits_of_le closedHeader himage spans admits fewer
    obtain ⟨whole, hwhole, second⟩ := fits_of_walk walk each
    obtain ⟨rest, hrest, shorter⟩ := imageAll_of_subperm hwhole remnant.among
    have shorter' := Nat.le_trans (Nat.add_le_add_left shorter start) second.le
    constructor
    · exact ⟨Nat.lt_of_le_of_lt fewer small, ⟨closedLimit _ _ fewer small within, admits'⟩,
        fun uncounted => by cases uncounted⟩
    · exact ⟨outer ++ rest, append_eq_ok_iff.mpr ⟨outer, rest, houter, hrest, rfl⟩,
        first.append some shorter' second.room⟩
  | remainder =>
    obtain ⟨-, -, walk⟩ := toEnd_eq_ok_iff.mp (toEnd_of_read_remainder h)
    have forward : Walk item (· < ·) offset items stop log :=
      walk.refine fun head moves => by
        have := (each head).le
        omega
    obtain ⟨whole, hwhole, fits⟩ := fits_of_walk forward each
    obtain ⟨rest, hrest, shorter⟩ := imageAll_of_subperm hwhole remnant.among
    have parts : ∀ x ∈ items, ∃ part, image x = .ok part ∧ part ≠ [] ∧
        part.length < addressSpace := by
      refine forward.forall_mem fun head moves => ?_
      obtain ⟨part, hpart, inside⟩ := each head
      exact ⟨part, hpart, inside.some moves, inside.length_lt⟩
    have few := forward.length_le fun _ _ moves => moves
    refine ⟨⟨?_, trivial, ?_⟩, rest, append_eq_ok_iff.mpr ⟨[], rest, rfl, hrest, rfl⟩, ?_, ?_, ?_⟩
    · by_cases moved : offset < stop
      · have := fits.room moved
        omega
      · have : 0 < addressSpace := by decide
        omega
    · intro _ x hx n hn
      obtain ⟨part, hpart, some, small⟩ := parts x (remnant.among.subset hx)
      rw [sizes hpart small] at hn
      cases hn
      exact List.length_pos_iff.mpr some
    · have := fits.le
      omega
    · intro moved
      have left : entries ≠ [] := by
        apply remnant.some
        rintro rfl
        cases forward
        exact Nat.lt_irrefl _ moved
      obtain ⟨x, others, rfl⟩ := List.exists_cons_of_ne_nil left
      obtain ⟨part, tail, hpart, -, rfl⟩ := append_eq_ok_iff.mp hrest
      obtain ⟨part', hpart', some, -⟩ := parts x (remnant.among.subset List.mem_cons_self)
      cases hpart.symm.trans hpart'
      exact List.append_ne_nil_of_left_ne_nil some tail
    · exact fits.room

end Items
end ByteSchema
