import ByteSchema.Proofs.FaultlessReading

/-!
# Reading from behind the end of the input

Whatever looks at the input notices that its offset is not inside, even where it asks for no byte:
the window that is not there is refused.  A fixed count of no items looks at nothing, and what is
made of such counts alone answers from any offset.  The schemas of this kind are told here, and all
others are shown to refuse.  The size of the items is asked for in either case, which is a sum that
may fault; in a valid schema it does not.
-/
namespace ByteSchema

open Bytes

variable {α β : Type}

/-- It fails, and raises no other error than that there is nothing left at the offset. -/
def Outcome.Beyond (x : Outcome α) (offset : Nat) : Prop :=
  x.Fails (Failure.Raised fun e => ∃ expected, e = .endOfInput expected offset 0)

def Reading.Beyond (x : Reading α) (offset : Nat) : Prop :=
  x.Fails (Failure.Raised fun e => ∃ expected, e = .endOfInput expected offset 0)

variable {bytes : Bytes} {offset : Nat}

/-- One outcome for all inputs and all offsets, where the reader stays.  A sum may leave the address
space, but nothing is refused. -/
def Reading.Still (read : Bytes → Nat → Reading (α × Nat)) : Prop :=
  ∃ (log : List Event) (x : Outcome α), x.OnlyOverflows ∧
    ∀ bytes offset, read bytes offset = ⟨log, x.map (·, offset)⟩

namespace Reading.Still

variable {read : Bytes → Nat → Reading (α × Nat)} {next : α → Bytes → Nat → Reading (β × Nat)}

theorem pure (a : α) : Still fun _ offset => Pure.pure (a, offset) :=
  ⟨[], .ok a, .ok a, fun _ _ => rfl⟩

theorem bind (h : Still read) (hnext : ∀ a, Still (next a)) :
    Still fun bytes offset => read bytes offset >>= fun r => next r.1 bytes r.2 := by
  obtain ⟨log, x, sums, same⟩ := h
  cases x with
  | error e =>
    refine ⟨log, .error e, .error (sums e rfl), fun bytes offset => ?_⟩
    simp only [same]
    rfl
  | ok a =>
    obtain ⟨later, y, sums', same'⟩ := hnext a
    refine ⟨log ++ later, y, sums', fun bytes offset => ?_⟩
    simp only [same, Except.map, ok_bind, same']

/-- A step behind an outcome. -/
theorem lift_bind {γ : Type} {x : Outcome γ} {next : γ → Bytes → Nat → Reading (α × Nat)}
    (sums : x.OnlyOverflows) (hnext : ∀ c, Still (next c)) :
    Still fun bytes offset => (liftM x : Reading γ) >>= fun c => next c bytes offset := by
  cases x with
  | error e => exact ⟨[], .error e, .error (sums e rfl), fun _ _ => rfl⟩
  | ok c => exact hnext c

/-- An item that stays where it is may be read as often as wanted. -/
theorem times {item : Bytes → Nat → Reading (α × Nat)} (h : Still item) (n : Nat) :
    Still fun bytes offset => times (item bytes) n offset := by
  induction n with
  | zero => exact pure []
  | succ n ih =>
    simp only [times_succ]
    exact h.bind fun a => ih.bind fun as => pure (a :: as)

theorem before {f : α × Nat → Reading β} (h : Still read)
    (hf : ∀ a, (f (a, offset)).Beyond offset) : (read bytes offset >>= f).Beyond offset := by
  obtain ⟨log, x, sums, same⟩ := h
  rw [same]
  cases x with
  | ok a => exact hf a
  | error e =>
    cases sums e rfl
    exact ⟨_, rfl, trivial⟩

end Reading.Still

section Leaves

variable (past : bytes.size < offset)

include past in
/-- Not even an empty window is found behind the end. -/
theorem Bytes.window_beyond (len : Nat) : (bytes.window offset len).Beyond offset := by
  refine ⟨_, window_of_lt (Nat.lt_add_right len past), len, ?_⟩
  rw [Nat.sub_eq_zero_of_le (Nat.le_of_lt past)]

include past in
theorem IntFormat.read_beyond (format : IntFormat) (here : offset < addressSpace) :
    (format.read bytes offset).Beyond offset := by
  cases format with
  | word signed width order => exact (window_beyond past width.bytes).bind
  | compact =>
    have gone : bytes[offset + 0]? = none := Array.getElem?_eq_none (Nat.le_of_lt past)
    have first : (Compact.readGroups bytes offset 3 0 0).Beyond offset := by
      refine ⟨_, Compact.readGroups_of_none here gone, 1, ?_⟩
      rw [Nat.sub_eq_zero_of_le (Nat.le_of_lt past)]
    exact first.bind

include past in
theorem Header.read_beyond (header : Header) (here : offset < addressSpace) :
    (header.read bytes offset).Beyond offset := by
  induction header with
  | plain format => exact format.read_beyond past here
  | framed inner header limit _ hheader => exact hheader.bind.bind

include past in
theorem Header.readCount_beyond (header : Header) (here : offset < addressSpace) :
    (header.readCount bytes offset).Beyond offset :=
  (header.read_beyond past here).bind

include past in
theorem Slot.read_beyond (slot : Slot) (here : offset < addressSpace) :
    (slot.read bytes offset).Beyond offset := by
  unfold Slot.read
  cases slot.length with
  | fixed n => exact .lift_bind (window_beyond past n)
  | counted header => exact (header.readCount_beyond past here).bind
  | remainder => exact .lift_bind (window_beyond past _)

end Leaves

/-- Whether a run of items looks at nothing, if the items are blind as `item` says. -/
def Length.blind (item : Bool) : Length → Bool
  | fixed n => n == 0 || item
  | _ => false

namespace Items

variable {length : Length} {limit : Limit} {size : Outcome Size} {itemBlind : Bool}
  {item : Nat → Reading (α × Nat)}

/-- The first item is read where the count starts, unless a header or the rest of the input is. -/
theorem read_beyond (past : bytes.size < offset) (here : offset < addressSpace)
    (sees : length.blind itemBlind = false) (sums : size.OnlyOverflows)
    (first : itemBlind = false → (item offset).Beyond offset) :
    (Items.read length limit size item bytes offset).Beyond offset := by
  cases length with
  | fixed n =>
    obtain ⟨some, itemSees⟩ := Bool.or_eq_false_iff.mp sees
    obtain ⟨n, rfl⟩ := Nat.exists_eq_succ_of_ne_zero (beq_eq_false_iff_ne.mp some)
    rw [read_fixed]
    cases size with
    | error e =>
      cases sums e rfl
      exact ⟨_, rfl, trivial⟩
    | ok s =>
      have loop : (Reading.times item (n + 1) offset).Beyond offset := by
        rw [Reading.times_succ]
        exact (first itemSees).bind
      exact loop
  | counted header =>
    rw [read_counted]
    exact (header.readCount_beyond past here).bind
  | remainder =>
    rw [read_remainder]
    exact .lift_bind (window_beyond past _)

/-- Blind items, of a fixed number, are the same everywhere. -/
theorem read_still {item : Bytes → Nat → Reading (α × Nat)} (blind : length.blind itemBlind = true)
    (limit : Limit) (sums : size.OnlyOverflows) (each : itemBlind = true → Reading.Still item) :
    Reading.Still fun bytes => Items.read length limit size (item bytes) bytes := by
  cases length with
  | counted header => cases blind
  | remainder => cases blind
  | fixed n =>
    refine .lift_bind sums fun _ => ?_
    rcases Bool.or_eq_true_iff.mp blind with none | possible
    · cases beq_iff_eq.mp none
      exact .pure []
    · exact (each possible).times n

end Items

namespace Schema

open Reading

mutual

/-- Whether reading the schema looks at nothing. -/
def blind : Schema → Bool
  | int _ | float _ _ | bool _ | slot _ _ | constant _ => false
  | option _ _ | union _ _ | framed _ _ _ => false
  | record fields => blindAll fields
  | array item length _ => length.blind item.blind
  | map _ key value length _ => length.blind (key.blind && value.blind)
  | converted _ inner => inner.blind

def blindAll : List (Field Schema) → Bool
  | [] => true
  | f :: fields => f.schema.blind && blindAll fields

end

variable {s : Schema}

private theorem reportField_still {read : Bytes → Nat → Reading (Value × Nat)} (h : Still read)
    (name : Option String) :
    Still fun bytes offset => reportField name offset (read bytes offset) := by
  obtain ⟨log, x, sums, same⟩ := h
  refine ⟨log, x, sums, fun bytes offset => ?_⟩
  simp only [same]
  cases x with
  | ok v => cases name <;> rfl
  | error e =>
    cases sums e rfl
    cases name <;> rfl

private theorem readFields_still {fields : List (Field Schema)}
    (each : ∀ f ∈ fields, f.schema.blind = true → Still f.schema.read)
    (blind : blindAll fields = true) : Still (readFields fields) := by
  induction fields with
  | nil => exact .pure []
  | cons f fields ih =>
    obtain ⟨here, behind⟩ := Bool.and_eq_true_iff.mp blind
    have tail := ih (fun g hg => each g (List.mem_cons_of_mem f hg)) behind
    exact (reportField_still (each f List.mem_cons_self here) f.name).bind fun v =>
      tail.bind fun vs => .pure (v :: vs)

private theorem readPair_still {key value : Schema} (hkey : Still key.read)
    (hvalue : Still value.read) : Still (readPair key value) :=
  hkey.bind fun k => hvalue.bind fun v => .pure (k, v)

private theorem gather_still (kind : MapKind) (pairs : List (Value × Value)) :
    Still fun _ offset => Association.gather kind pairs >>= fun entries =>
      pure (Value.map entries, offset) := by
  obtain ⟨log, hgather⟩ := outcome_eq_ok.mp (Association.gather_outcome kind pairs)
  refine ⟨log ++ [], .ok (.map (Association.ofPairs kind pairs)), .ok _, fun _ _ => ?_⟩
  rw [hgather]
  rfl

theorem read_still (blind : s.blind = true) : Still s.read := by
  induction s with
  | int | float | bool | slot | constant | option | union | framed => cases blind
  | record fields each =>
    exact (readFields_still each blind).bind fun vs => .pure (Value.list vs)
  | array item length limit hitem =>
    have items := Items.read_still blind limit item.size_overflows hitem
    exact items.bind fun vs => .pure (Value.list vs)
  | map kind key value length limit hkey hvalue =>
    have pairs := Items.read_still blind limit (pairSize_overflows key value) fun both => by
      obtain ⟨keyBlind, valueBlind⟩ := Bool.and_eq_true_iff.mp both
      exact readPair_still (hkey keyBlind) (hvalue valueBlind)
    exact pairs.bind fun found => gather_still kind found
  | converted conversion inner hinner =>
    exact (hinner blind).bind fun w => .pure (conversion.load w)

private theorem readBool_beyond {header : Header}
    (h : (header.readCount bytes offset).Beyond offset) :
    (readBool header bytes offset).Beyond offset := by
  unfold readBool
  cases hcount : header.readCount bytes offset with
  | mk events outcome =>
    rw [hcount] at h
    obtain ⟨failure, rfl, raised⟩ := h
    cases failure with
    | fault f => exact ⟨_, rfl, trivial⟩
    | error e =>
      obtain ⟨expected, rfl⟩ := raised
      exact ⟨_, rfl, expected, rfl⟩

/-- Blind fields in front leave the offset as it is. -/
private theorem readFields_beyond {fields : List (Field Schema)}
    (each : ∀ f ∈ fields, f.schema.blind = false → (f.schema.read bytes offset).Beyond offset)
    (sees : blindAll fields = false) : (readFields fields bytes offset).Beyond offset := by
  induction fields with
  | nil => cases sees
  | cons f fields ih =>
    rw [readFields]
    cases here : f.schema.blind with
    | false =>
      refine Reading.Fails.bind ?_
      rw [Reading.Fails, reportField_outcome]
      exact each f List.mem_cons_self here
    | true =>
      have behind : blindAll fields = false := by simpa [blindAll, here] using sees
      refine (reportField_still (read_still here) f.name).before fun _ => ?_
      exact (ih (fun g hg => each g (List.mem_cons_of_mem f hg)) behind).bind

theorem read_beyond (sees : s.blind = false) (past : bytes.size < offset)
    (here : offset < addressSpace) : (s.read bytes offset).Beyond offset := by
  induction s with
  | int format => exact .lift_bind (format.read_beyond past here)
  | float precision order => exact .lift_bind (window_beyond past precision.bytes).bind
  | bool header => exact readBool_beyond (header.readCount_beyond past here)
  | slot content shape => exact (shape.read_beyond past here).bind
  | constant expected => exact .lift_bind (window_beyond past expected.length)
  | record fields each => exact (readFields_beyond each sees).bind
  | array item length limit hitem =>
    exact (Items.read_beyond past here sees item.size_overflows hitem).bind
  | map kind key value length limit hkey hvalue =>
    have sums := pairSize_overflows key value
    refine (Items.read_beyond past here sees sums fun oneSees => ?_).bind
    cases keySees : key.blind with
    | false => exact (hkey keySees).bind
    | true =>
      have valueSees : value.blind = false := by simpa [keySees] using oneSees
      exact (read_still keySees).before fun _ => (hvalue valueSees).bind
  | option header inner => exact (header.readCount_beyond past here).bind
  | union header variants => exact (header.readCount_beyond past here).bind
  | framed inner header limit => exact (header.readCount_beyond past here).bind
  | converted conversion inner hinner => exact (hinner sees).bind

/-- A schema that looks at the input answers no offset behind its end, and whatever it answers ends
inside.  What it says there, if it is valid, is that nothing is left.  A valid schema that looks at
nothing has one answer for all inputs and offsets. -/
theorem past_end_refused (s : Schema) :
    (s.blind = false → ∀ (bytes : Bytes) (offset : Nat), offset < addressSpace →
      (bytes.size < offset → s.validate = .ok () → ∃ expected, (s.read bytes offset).outcome =
        Outcome.fail (.endOfInput expected offset 0)) ∧
      ∀ v stop, (s.read bytes offset).outcome = .ok (v, stop) →
        offset ≤ bytes.size ∧ stop ≤ bytes.size) ∧
    (s.blind = true → s.validate = .ok () → ∃ v, ∀ (bytes : Bytes) (offset : Nat),
      (s.read bytes offset).outcome = .ok (v, offset)) := by
  refine ⟨fun sees bytes offset here => ⟨fun past valid => ?_, fun v stop h => ?_⟩,
    fun blind valid => ?_⟩
  · obtain ⟨failure, refused, raised⟩ := read_beyond sees past here
    have faultless := read_faultless valid (Nat.lt_trans past here) here
    cases failure with
    | fault f => cases faultless _ refused
    | error e =>
      obtain ⟨expected, rfl⟩ := raised
      exact ⟨expected, refused⟩
  · by_cases inside : offset ≤ bytes.size
    · obtain ⟨log, hread⟩ := outcome_eq_ok.mp h
      exact ⟨inside, (read_advances hread inside).2⟩
    · obtain ⟨failure, refused, -⟩ := read_beyond sees (Nat.not_le.mp inside) here
      cases h.symm.trans refused
  · obtain ⟨log, x, sums, still⟩ := read_still blind
    have faultless : (s.read #[] 0).Faultless := read_faultless valid (by decide) (by decide)
    cases x with
    | ok v => exact ⟨v, fun bytes offset => congrArg Reading.outcome (still bytes offset)⟩
    | error e =>
      cases sums e rfl
      cases faultless _ (congrArg Reading.outcome (still #[] 0))

/-- No numbers, and none of the pairs behind them. -/
def nothings : Schema :=
  tuple [array (int (.word false .one .little)) (.fixed 0) .all,
    map .ascending (int .compact) unit (.fixed 0) .all]

theorem past_end_refused_packet :
    (∃ expected, (packet.read #[1, 20, 7, 172] 5).outcome =
      Outcome.fail (.endOfInput expected 5 0)) ∧
    (∃ expected, (unit.read #[] 1).outcome = Outcome.fail (.endOfInput expected 1 0)) ∧
    (packet.read
      #[9, 1, 20, 7, 172, 2, 1, 0, 2, 10, 255, 0, 254, 255, 0, 0, 0, 5, 0, 0, 1, 128, 1, 8]
      1).outcome = .ok (packetValue, 23) ∧ 23 ≤ 24 ∧
    ∃ v, (nothings.read #[] 0).outcome = .ok (v, 0) ∧
      (nothings.read #[7] 3).outcome = .ok (v, 3) := by
  have four := (past_end_refused packet).1 rfl #[1, 20, 7, 172] 5 (by decide)
  have whole := (past_end_refused packet).1 rfl
    #[9, 1, 20, 7, 172, 2, 1, 0, 2, 10, 255, 0, 254, 255, 0, 0, 0, 5, 0, 0, 1, 128, 1, 8] 1
    (by decide)
  have empty := (past_end_refused unit).1 rfl #[] 1 (by decide)
  obtain ⟨v, still⟩ := (past_end_refused nothings).2 rfl rfl
  exact ⟨four.1 (by decide) rfl, empty.1 (by decide) rfl, rfl, (whole.2 packetValue 23 rfl).2, v,
    still #[] 0, still #[7] 3⟩

/-- A fixed count of no items is read from where there is no input, though other schemas of size
zero are refused there. -/
theorem nothings_past_end :
    nothings.validate = .ok () ∧
    (nothings.read #[] 5).outcome = .ok (.list [.list [], .map []], 5) ∧
    (unit.read #[] 5).outcome = Outcome.fail (.endOfInput 0 5 0) ∧
    ¬ ∀ s : Schema, s.validate = .ok () → ∀ (bytes : Bytes) (offset : Nat), offset < addressSpace →
      bytes.size < offset → ∀ v stop, (s.read bytes offset).outcome ≠ .ok (v, stop) := by
  have valid : nothings.validate = .ok () := rfl
  have answer : (nothings.read #[] 5).outcome = .ok (.list [.list [], .map []], 5) := rfl
  refine ⟨valid, answer, rfl, fun refused => ?_⟩
  exact refused nothings valid #[] 5 (by decide) (by decide) _ 5 answer

end Schema
end ByteSchema
