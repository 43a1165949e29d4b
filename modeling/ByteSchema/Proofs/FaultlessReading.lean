import ByteSchema.Proofs.Failing
import ByteSchema.Proofs.Gathering
import ByteSchema.Proofs.ReadingBounds
import ByteSchema.Proofs.SchemaParts

/-!
# Reading never faults

A read answers or refuses with an error, wherever it starts: no sum leaves the address space, no
byte outside the input is asked for, and no item goes back.  Each step is shown to be so from where
it starts, and `read_stays` says that the next one starts at an address too.  Decoding adds the size
of the whole schema, which is the one fault that it can have.
-/
namespace ByteSchema

open Bytes

variable {α β : Type}

/-- Whether the failure is an error and no fault. -/
def Failure.isError : Failure → Bool
  | .error _ => true
  | .fault _ => false

/-- An answer or an error, but no fault. -/
def Outcome.Faultless (x : Outcome α) : Prop := x.FailsOnly (·.isError = true)

def Reading.Faultless (x : Reading α) : Prop := x.FailsOnly (·.isError = true)

theorem Reading.Faultless.answers {x : Reading α} (h : x.Faultless) :
    (∃ a, x.outcome = .ok a) ∨ ∃ e, x.outcome = .error (.error e) := by
  obtain ⟨log, outcome⟩ := x
  cases outcome with
  | ok a => exact .inl ⟨a, rfl⟩
  | error e =>
    cases e with
    | error e => exact .inr ⟨e, rfl⟩
    | fault f => cases h _ rfl

open Outcome (Faultless)

variable {bytes : Bytes} {offset : Nat} (small : bytes.size < addressSpace)

namespace Bytes

include small in
theorem window_faultless (offset len : Nat) : Faultless (bytes.window offset len) := by
  by_cases inside : offset + len ≤ bytes.size
  · rw [window_eq_ok_iff.mpr ⟨inside, Nat.lt_of_le_of_lt inside small, rfl⟩]
    exact .ok _
  · rw [window_of_lt (Nat.not_le.mp inside)]
    exact .fail rfl

/-- Where a window was found, its end is an address. -/
theorem end_faultless {len : Nat} {found : Bytes} (h : bytes.window offset len = .ok found) :
    Faultless (checkedAdd offset len) :=
  .checkedAdd_of_lt (window_eq_ok_iff.mp h).2.1

end Bytes

include small in
/-- A byte that is there is followed by an address, so the groups behind it have one. -/
theorem Compact.readGroups_faultless {left i low : Nat} (here : offset + i < addressSpace) :
    Faultless (readGroups bytes offset left i low) := by
  induction left generalizing i low with
  | zero => exact .fail rfl
  | succ left ih =>
    rw [readGroups]
    refine .bind (.checkedAdd_of_lt here) fun position hposition => ?_
    obtain ⟨-, rfl⟩ := checkedAdd_eq_ok_iff.mp hposition
    cases hget : bytes[offset + i]? with
    | none => exact .fail rfl
    | some byte =>
      obtain ⟨inside, -⟩ := Array.getElem?_eq_some_iff.mp hget
      have next : offset + (i + 1) < addressSpace := by omega
      refine .ite (ih next) (.ite (.fail rfl) (.ite (.fail rfl) ?_))
      exact .bind (.checkedAdd_of_lt next) fun _ _ => .ok _

include small in
theorem IntFormat.read_faultless (format : IntFormat) (here : offset < addressSpace) :
    Faultless (format.read bytes offset) := by
  cases format with
  | word signed width order =>
    exact .bind (window_faultless small offset width.bytes) fun _ h =>
      .bind (end_faultless h) fun _ _ => .ok _
  | compact =>
    exact .bind (Compact.readGroups_faultless small here) fun _ _ => .ok _

include small in
theorem Floating.read_faultless (precision : Precision) (order : ByteOrder) :
    Faultless (Floating.read precision order bytes offset) :=
  .bind (window_faultless small offset precision.bytes) fun _ h =>
    .bind (end_faultless h) fun _ _ => .ok _

theorem Limit.check_faultless (limit : Limit) (n : Nat) : Faultless (limit.check n) :=
  .ite (.ok _) (.fail rfl)

namespace Frame

include small in
theorem read_faultless {reader : Bytes → Nat → Reading (Nat × Nat)} {limit : Limit}
    {payload : Bytes → Nat → Reading (α × Nat)} (hreader : (reader bytes offset).Faultless)
    (hpayload : ∀ inside : Bytes, inside.size < addressSpace → (payload inside 0).Faultless) :
    (Frame.read reader limit payload bytes offset).Faultless := by
  refine .bind hreader fun _ count _ => .lift_bind (limit.check_faultless _) fun _ _ => ?_
  obtain ⟨len, start⟩ := count
  refine .lift_bind (window_faultless small start len) fun inside hwindow => ?_
  obtain ⟨-, room, size⟩ := window_spans hwindow
  refine .bind (hpayload inside (by omega)) fun _ _ _ => ?_
  refine .ite ?_ (.bind (.lift (.ok _)) fun _ _ _ => .fail rfl)
  exact .lift_bind (end_faultless hwindow) fun _ _ => .pure _

end Frame

namespace Header

private theorem toCount_faultless (v : Int) : Faultless (toCount v) := .ite (.ok _) (.fail rfl)

theorem read_faultless (header : Header) (small : bytes.size < addressSpace)
    (here : offset < addressSpace) : (header.read bytes offset).Faultless := by
  induction header generalizing bytes offset with
  | plain format => exact .lift (format.read_faultless small here)
  | framed inner header limit hinner hheader =>
    refine Frame.read_faultless small ?_ fun inside fits => hinner fits (by decide)
    exact .bind (hheader small here) fun _ _ _ =>
      .lift_bind (toCount_faultless _) fun _ _ => .pure _

include small in
theorem readCount_faultless (header : Header) (here : offset < addressSpace) :
    (header.readCount bytes offset).Faultless :=
  .bind (header.read_faultless small here) fun _ _ _ =>
    .lift_bind (toCount_faultless _) fun _ _ => .pure _

/-- What is behind a count starts at an address. -/
theorem stop_of_readCount {header : Header} {n stop : Nat} {log : List Event}
    (h : header.readCount bytes offset = ⟨log, .ok (n, stop)⟩) : stop < addressSpace := by
  obtain ⟨-, -, -, _, -, -, small⟩ := header.readCount_counts.mp h
  exact small

end Header

include small in
theorem Slot.read_faultless (slot : Slot) (here : offset < addressSpace) :
    (slot.read bytes offset).Faultless := by
  unfold Slot.read
  cases slot.length with
  | fixed n =>
    exact .lift_bind (window_faultless small offset n) fun _ h =>
      .lift_bind (end_faultless h) fun _ _ => .pure _
  | counted header =>
    refine .bind (header.readCount_faultless small here) fun _ count _ => ?_
    refine .lift_bind (slot.limit.check_faultless _) fun _ _ => ?_
    exact .lift_bind (window_faultless small count.2 count.1) fun _ h =>
      .lift_bind (end_faultless h) fun _ _ => .pure _
  | remainder =>
    refine .lift_bind (window_faultless small offset _) fun found h => ?_
    have size := (window_spans h).2.2
    exact .lift_bind (size ▸ end_faultless h) fun _ _ => .pure _

theorem Content.ofBytes_faultless (content : Content) (bs : List UInt8) :
    Faultless (content.ofBytes bs) :=
  (content.ofBytes_failsOnly bs).mono fun
    | _, ⟨_, _, rfl⟩ => rfl

namespace Reading

variable {item : Nat → Reading (α × Nat)} (each : ∀ a < addressSpace, (item a).Faultless)
  (stays : ∀ {l x a b}, item a = ⟨l, .ok (x, b)⟩ → b = a ∨ (a < b ∧ b < addressSpace))

include each stays in
theorem times_faultless (n : Nat) (here : offset < addressSpace) :
    (times item n offset).Faultless :=
  .times each (fun before h => by have := stays h; omega) here n

include each stays in
/-- Items that only go forward leave at least one unit of fuel for each offset before the stop. -/
theorem toEndAfter_faultless {stop fuel : Nat} {done : List α} {log : List Event}
    (here : offset < addressSpace) (room : stop ≤ offset + fuel) :
    (toEndAfter item stop fuel offset done log).Faultless := by
  induction fuel generalizing offset done log with
  | zero =>
    have ended : stop ≤ offset := room
    rw [toEndAfter, if_pos ended]
    exact .pure _
  | succ fuel ih =>
    rw [toEndAfter]
    refine .ite (.pure _) ?_
    cases hitem : item offset with
    | mk events outcome =>
      cases outcome with
      | error e =>
        rintro _ ⟨⟩
        exact each offset here e (by rw [hitem])
      | ok r =>
        obtain ⟨a, next⟩ := r
        by_cases still : next = offset
        · simp only [if_pos still]
          exact .fail rfl
        · simp only [if_neg still]
          have forward := stays hitem
          exact ih (by omega) (by omega)

end Reading

include small in
theorem Items.read_faultless {length : Length} {limit : Limit} {size : Outcome Size}
    {item : Nat → Reading (α × Nat)} (here : offset < addressSpace) (known : ∃ s, size = .ok s)
    (each : ∀ a < addressSpace, (item a).Faultless)
    (stays : ∀ {l x a b}, item a = ⟨l, .ok (x, b)⟩ → b = a ∨ (a < b ∧ b < addressSpace)) :
    (Items.read length limit size item bytes offset).Faultless := by
  obtain ⟨s, rfl⟩ := known
  cases length with
  | fixed n =>
    rw [read_fixed]
    exact .lift_bind (.ok s) fun _ _ => Reading.times_faultless each stays n here
  | counted header =>
    rw [read_counted]
    refine .bind (header.readCount_faultless small here) fun _ count hcount => ?_
    have start := Header.stop_of_readCount hcount
    exact .lift_bind (limit.check_faultless _) fun _ _ => .lift_bind (.ok s) fun _ _ =>
      Reading.times_faultless each stays count.1 start
  | remainder =>
    rw [read_remainder]
    have loop : (Reading.toEnd item bytes.size offset).Faultless :=
      Reading.toEndAfter_faultless each stays here (by omega)
    refine .lift_bind (window_faultless small offset _) fun rest _ => .lift_bind (.ok s) ?_
    rintro _ ⟨⟩
    cases s with
    | varying => exact loop
    | fixed k => exact .ite (.fail rfl) loop

namespace Schema

open Reading

variable {s : Schema}

private theorem readBool_faultless {header : Header}
    (h : (header.readCount bytes offset).Faultless) : (readBool header bytes offset).Faultless := by
  unfold readBool
  cases hcount : header.readCount bytes offset with
  | mk events outcome =>
    rw [hcount] at h
    cases outcome with
    | ok r =>
      obtain ⟨n, stop⟩ := r
      match n with
      | 0 => exact .pure _
      | 1 => exact .pure _
      | n + 2 => exact .fail rfl
    | error e =>
      cases e with
      | error e => cases e <;> exact .fail rfl
      | fault f => cases h _ rfl

private theorem readFields_faultless {fields : List (Field Schema)}
    (each : ∀ f ∈ fields, ∀ a < addressSpace, (f.schema.read bytes a).Faultless)
    (here : offset < addressSpace) : (readFields fields bytes offset).Faultless := by
  induction fields generalizing offset with
  | nil => exact .pure _
  | cons f fields ih =>
    rw [readFields]
    refine .bind ?_ fun log r h => ?_
    · rw [FailsOnly, reportField_outcome]
      exact each f List.mem_cons_self offset here
    · have read := congrArg outcome h
      rw [reportField_outcome] at read
      obtain ⟨_, hread⟩ := outcome_eq_ok.mp read
      have next := read_stays hread
      have tail := fun g hg => each g (List.mem_cons_of_mem f hg)
      exact .bind (ih tail (by omega)) fun _ _ _ => .pure _

private theorem readCase_faultless {tag : Nat} {variants : List (Variant Schema)}
    (each : ∀ v ∈ variants, (v.schema.read bytes offset).Faultless) :
    (readCase tag variants bytes offset).Faultless := by
  induction variants with
  | nil => exact .bind (.lift (.ok _)) fun _ _ _ => .fail rfl
  | cons v variants ih =>
    rw [readCase]
    refine .ite ?_ (ih fun w hw => each w (List.mem_cons_of_mem v hw))
    exact .bind (each v List.mem_cons_self) fun _ _ _ => .pure _

private theorem next_of_stays {stop : Nat}
    (h : stop = offset ∨ (offset < stop ∧ stop ≤ bytes.size ∧ stop < addressSpace)) :
    stop = offset ∨ (offset < stop ∧ stop < addressSpace) := by
  omega

theorem read_faultless (valid : s.validate = .ok ()) (small : bytes.size < addressSpace)
    (here : offset < addressSpace) : (s.read bytes offset).Faultless := by
  induction s generalizing bytes offset with
  | int format => exact .lift_bind (format.read_faultless small here) fun _ _ => .pure _
  | float precision order =>
    exact .lift_bind (Floating.read_faultless small precision order) fun _ _ => .pure _
  | bool header => exact readBool_faultless (header.readCount_faultless small here)
  | slot content shape =>
    exact .bind (shape.read_faultless small here) fun _ _ _ =>
      .lift_bind (content.ofBytes_faultless _) fun _ _ => .pure _
  | constant expected =>
    refine .lift_bind (window_faultless small offset _) fun found h => .ite ?_ (.fail rfl)
    exact .lift_bind (end_faultless h) fun _ _ => .pure _
  | record fields each =>
    refine .bind (readFields_faultless (fun f hf a ha => ?_) here) fun _ _ _ => .pure _
    exact each f hf (part_valid valid (List.mem_map_of_mem hf)) small ha
  | array item length limit hitem =>
    refine .bind (Items.read_faultless small here (item_sized valid) ?_ ?_) fun _ _ _ => .pure _
    · exact fun a ha => hitem (part_valid valid List.mem_cons_self) small ha
    · exact fun h => next_of_stays (read_stays h)
  | map kind key value length limit hkey hvalue =>
    obtain ⟨keys, values⟩ := pair_valid valid
    refine .bind (Items.read_faultless small here (pair_sized valid) ?_ ?_) fun _ pairs _ => ?_
    · intro a ha
      refine .bind (hkey keys small ha) fun _ r h => ?_
      have next := read_stays h
      exact .bind (hvalue values small (by omega)) fun _ _ _ => .pure _
    · intro l e a b h
      obtain ⟨middle, _, _, first, second, -⟩ := readPair_eq_ok_iff.mp h
      have := read_stays first
      have := read_stays second
      omega
    · refine .bind ?_ fun _ _ _ => .pure _
      rw [FailsOnly, Association.gather_outcome]
      exact .ok _
  | option header inner hinner =>
    refine .bind (header.readCount_faultless small here) fun _ count hcount => ?_
    have middle := Header.stop_of_readCount hcount
    obtain ⟨tag, start⟩ := count
    match tag with
    | 0 => exact .pure _
    | 1 => exact .bind (hinner valid small middle) fun _ _ _ => .pure _
    | tag + 2 => exact .fail rfl
  | union header variants each =>
    refine .bind (header.readCount_faultless small here) fun _ count hcount => ?_
    have middle := Header.stop_of_readCount hcount
    exact readCase_faultless fun v hv =>
      each v hv (part_valid valid (List.mem_map_of_mem hv)) small middle
  | framed inner header limit hinner =>
    exact Frame.read_faultless small (header.readCount_faultless small here) fun inside fits =>
      hinner valid fits (by decide)
  | converted conversion inner hinner =>
    exact .bind (hinner valid small here) fun _ _ _ => .pure _

end Schema

/-- The outcome fails with sums only that are no addresses. -/
def Outcome.OnlyOverflows (x : Outcome α) : Prop := x.FailsOnly (· = .fault .additionOverflow)

open Outcome (OnlyOverflows)

theorem Header.size_overflows (header : Header) : OnlyOverflows header.size := by
  induction header with
  | plain format => exact .ok _
  | framed inner header limit hinner hheader =>
    exact .bind hheader fun _ _ => .bind hinner fun _ _ => .add rfl

namespace Schema

variable {s : Schema}

private theorem sizeAfter_overflows {total : Size} {fields : List (Field Schema)}
    (each : ∀ f ∈ fields, OnlyOverflows f.schema.size) :
    OnlyOverflows (sizeAfter total fields) := by
  induction fields generalizing total with
  | nil => exact .ok _
  | cons f fields ih =>
    exact .bind (each f List.mem_cons_self) fun _ _ => .bind (.add rfl) fun _ _ =>
      ih fun g hg => each g (List.mem_cons_of_mem f hg)

private theorem commonSize_overflows {before : Option Nat} {variants : List (Variant Schema)}
    (each : ∀ v ∈ variants, OnlyOverflows v.schema.size) :
    OnlyOverflows (commonSize before variants) := by
  induction variants generalizing before with
  | nil => exact .ok _
  | cons v variants ih =>
    refine .bind (each v List.mem_cons_self) fun size _ => ?_
    cases size with
    | varying => exact .ok _
    | fixed n =>
      by_cases same : before.getD n = n
      · simp only [if_pos same]
        exact ih fun w hw => each w (List.mem_cons_of_mem v hw)
      · simp only [if_neg same]
        exact .ok _

theorem size_overflows (s : Schema) : OnlyOverflows s.size := by
  induction s with
  | int | float | slot | constant | option => exact .ok _
  | bool header => exact header.size_overflows
  | record fields each => exact sizeAfter_overflows each
  | array item length limit hitem => exact .bind hitem fun _ _ => .ok _
  | map kind key value length limit hkey hvalue =>
    refine .bind ?_ fun _ _ => .ok _
    exact .bind hkey fun _ _ => .bind (.add rfl) fun _ _ => .bind hvalue fun _ _ => .add rfl
  | union header variants each =>
    refine .bind header.size_overflows fun size _ => ?_
    cases size with
    | varying => exact .ok _
    | fixed tag =>
      refine .bind (commonSize_overflows each) fun common _ => ?_
      cases common with
      | none => exact .ok _
      | some payload => exact .bind (.checkedAdd rfl) fun _ _ => .ok _
  | framed inner header limit hinner =>
    exact .bind header.size_overflows fun _ _ => .bind hinner fun _ _ => .add rfl
  | converted conversion inner hinner => exact hinner

theorem pairSize_overflows (key value : Schema) :
    OnlyOverflows (Items.pairSize key.size value.size) :=
  .bind key.size_overflows fun _ _ => .bind (.add rfl) fun _ _ =>
    .bind value.size_overflows fun _ _ => .add rfl

/-- Schemas whose own size is a sum. -/
def Adds : Schema → Prop
  | bool (.framed ..) | record _ | union _ _ | framed _ _ _ => True
  | _ => False

/-- Elsewhere the size of a valid schema is told by those of its parts. -/
private theorem sized_of_parts (valid : s.validate = .ok ()) (parts : ∀ u ∈ s.parts, u.Sized)
    (noSum : ¬ s.Adds) : s.Sized := by
  cases s with
  | int | float | slot | constant | option => exact ⟨_, rfl⟩
  | bool header =>
    cases header with
    | plain format => exact ⟨_, rfl⟩
    | framed inner header limit => exact absurd trivial noSum
  | record | union | framed => exact absurd trivial noSum
  | array item length limit =>
    obtain ⟨size, hsize⟩ := item_sized valid
    exact ⟨_, Outcome.bind_eq_ok.mpr ⟨size, hsize, rfl⟩⟩
  | map kind key value length limit =>
    obtain ⟨size, hsize⟩ := pair_sized valid
    exact ⟨_, Outcome.bind_eq_ok.mpr ⟨size, hsize, rfl⟩⟩
  | converted conversion inner => exact parts inner List.mem_cons_self

/-- Where the size of a schema is not known there is a sum inside that leaves the address space,
though all that it adds up is known. -/
theorem sum_of_not_sized (valid : s.validate = .ok ()) (unsized : ¬ s.Sized) :
    ∃ t ∈ s.nodes, t.Adds ∧ t.size = .error (.fault .additionOverflow) ∧
      ∀ u ∈ t.parts, u.Sized := by
  induction s using parts_induction with
  | step s ih =>
    by_cases parts : ∀ u ∈ s.parts, u.Sized
    · have sum : s.Adds := by
        by_contra noSum
        exact unsized (sized_of_parts valid parts noSum)
      refine ⟨s, nodes_eq s ▸ List.mem_cons_self, sum, ?_, parts⟩
      cases hsize : s.size with
      | ok size => exact absurd ⟨size, hsize⟩ unsized
      | error e => rw [s.size_overflows e hsize]
    · simp only [not_forall] at parts
      obtain ⟨u, isPart, missing⟩ := parts
      obtain ⟨t, ht, found⟩ := ih u isPart (part_valid valid isPart) missing
      have below : t ∈ s.parts.flatMap nodes := List.mem_flatMap.mpr ⟨u, isPart, ht⟩
      exact ⟨t, nodes_eq s ▸ List.mem_cons_of_mem s below, found⟩

example :
    let half := slot .raw ⟨.fixed 9223372036854775808, 0, false, .all⟩
    (tuple [half, half]).validate = .ok () ∧
      (tuple [half, half]).size = .error (.fault .additionOverflow) := ⟨rfl, rfl⟩

theorem decode_faultless {bytes : Bytes} {size : Size} (valid : s.validate = .ok ())
    (small : bytes.size < addressSpace) (sized : s.size = .ok size) :
    (s.decode bytes).Faultless := by
  rw [decode, sized]
  refine .lift_bind (.ok size) fun size _ => .lift_bind ?_ fun _ _ => ?_
  · cases size with
    | varying => exact .ok _
    | fixed n => exact .ite (.fail rfl) (.ite (.fail rfl) (.ok _))
  · exact .bind (read_faultless valid small (by decide)) fun _ _ _ => .ite (.fail rfl) (.pure _)

/-- Whatever the bytes and the offset, reading answers or refuses, and an answer stays inside the
input.  Decoding does so too unless the size of the whole schema faults, which only a sum can do. -/
theorem reading_faultless (s : Schema) (valid : s.validate = .ok ()) (bytes : Bytes)
    (small : bytes.size < addressSpace) :
    (∀ offset < addressSpace,
      ((∃ v stop, (s.read bytes offset).outcome = .ok (v, stop)) ∨
        ∃ e, (s.read bytes offset).outcome = .error (.error e)) ∧
      ∀ v stop, (s.read bytes offset).outcome = .ok (v, stop) → offset ≤ bytes.size →
        offset ≤ stop ∧ stop ≤ bytes.size) ∧
    (∀ f, (s.decode bytes).outcome = .error (.fault f) ↔ s.size = .error (.fault f)) ∧
    (∀ size, s.size = .ok size →
      (∃ v, (s.decode bytes).outcome = .ok v) ∨
        ∃ e, (s.decode bytes).outcome = .error (.error e)) ∧
    ∀ failure, s.size = .error failure →
      failure = .fault .additionOverflow ∧
        ∃ t ∈ s.nodes, t.Adds ∧ t.size = .error (.fault .additionOverflow) ∧
          ∀ u ∈ t.parts, u.Sized := by
  refine ⟨fun offset here => ⟨?_, ?_⟩, fun f => ⟨?_, ?_⟩, ?_, ?_⟩
  · rcases (read_faultless valid small here).answers with ⟨⟨v, stop⟩, h⟩ | refused
    · exact .inl ⟨v, stop, h⟩
    · exact .inr refused
  · intro v stop h inside
    obtain ⟨log, hread⟩ := Reading.outcome_eq_ok.mp h
    exact read_advances hread inside
  · intro h
    cases hsize : s.size with
    | ok size => cases decode_faultless valid small hsize _ h
    | error e =>
      rw [decode, hsize] at h
      cases h
      rfl
  · intro h
    rw [decode, h]
    rfl
  · intro size sized
    exact (decode_faultless valid small sized).answers
  · intro failure h
    refine ⟨s.size_overflows failure h, sum_of_not_sized valid ?_⟩
    rintro ⟨size, sized⟩
    cases h.symm.trans sized

set_option maxRecDepth 4000 in
theorem reading_faultless_packet :
    packet.validate = .ok () ∧
    (∃ v stop, (packet.read
      #[9, 1, 20, 7, 172, 2, 1, 0, 2, 10, 255, 0, 254, 255, 0, 0, 0, 5, 0, 0, 1, 128, 1, 8] 1).outcome =
        .ok (v, stop) ∧ 1 ≤ stop ∧ stop ≤ 24) ∧
    (∀ v stop, (packet.read #[1, 20, 7, 172] 18446744073709551615).outcome ≠ .ok (v, stop)) ∧
    (∃ e, (packet.read #[1, 20, 7, 172] 18446744073709551615).outcome = .error (.error e)) ∧
    ∀ f, (packet.decode #[1, 20, 7, 172]).outcome ≠ .error (.fault f) := by
  have valid : packet.validate = .ok () := rfl
  obtain ⟨bounds, -⟩ := reading_faultless packet valid
    #[9, 1, 20, 7, 172, 2, 1, 0, 2, 10, 255, 0, 254, 255, 0, 0, 0, 5, 0, 0, 1, 128, 1, 8]
    (by decide)
  obtain ⟨far, faults, -⟩ := reading_faultless packet valid #[1, 20, 7, 172] (by decide)
  have beyond : ∀ v stop,
      (packet.read #[1, 20, 7, 172] 18446744073709551615).outcome ≠ .ok (v, stop) := by
    intro v stop h
    cases h
  refine ⟨valid, ⟨packetValue, 23, rfl, ?_⟩, beyond, ?_, ?_⟩
  · exact (bounds 1 (by decide)).2 packetValue 23 rfl (by decide)
  · rcases (far 18446744073709551615 (by decide)).1 with ⟨v, stop, h⟩ | refused
    · exact absurd h (beyond v stop)
    · exact refused
  · intro f h
    cases (faults f).mp h

end Schema
end ByteSchema
