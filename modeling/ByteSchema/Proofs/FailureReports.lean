import ByteSchema.Proofs.FailureSites
import ByteSchema.Proofs.FaultlessReading
import ByteSchema.Proofs.ItemLoops
import ByteSchema.Proofs.KeyedPairs
import ByteSchema.Proofs.RaisedErrors

/-!
# What is reported of a failure

The events of a reading are kept beside its outcome, and no step looks at them.  Overwritten keys
are reported as they come.  A failure is reported where it arises, if it is one of two kinds, and
then by every named field on the way out.  So the reports tell the place of the failure, which the
walk that keeps the places knows without them.  Forgetting the places gives back the outcomes of the
readers.
-/
namespace ByteSchema

/-- The named fields around the failure with the offsets where they start, from the outside in. -/
def Site.fields : Site → List (String × Nat)
  | here _ => []
  | payload inside => inside.fields
  | field name offset inside => (name, offset) :: inside.fields

/-- The event that comes from where the failure arose. -/
def Cause.origin : Cause → Option Event
  | undeclared tag offset => some (.tagUnknown tag offset)
  | mismatched offset expected consumed => some (.frameMismatch offset expected consumed)
  | excluded .. | other => none

/-- All that is reported of the failure: where it arose, and then from the inside out. -/
def Located.diagnosis (l : Located) : List Event :=
  match l.failure with
  | .error e =>
    l.site.cause.origin.toList ++ l.site.fields.reverse.map fun f => .fieldFailed f.1 f.2 e
  | .fault _ => []

theorem Located.diagnosis_here (e : Error) (cause : Cause) :
    (Located.mk (.error e) (.here cause)).diagnosis = cause.origin.toList := List.append_nil _

namespace Tracing

variable {α β : Type} {B C : Site → Error → Prop}

def diagnosis : Tracing α → List Event
  | .ok _ => []
  | .error l => l.diagnosis

/-- The reader answers what the walk does, and reports overwritten keys and then the failure; `B`
holds of the place and the error. -/
structure Reports (B : Site → Error → Prop) (x : Tracing α) (y : Reading α) : Prop where
  reading : ∃ indices : List Nat, y = ⟨indices.map .keyOverwritten ++ x.diagnosis, x.outcome⟩
  blamed : ∀ site e, x = .error ⟨.error e, site⟩ → B site e

namespace Reports

theorem outcome {x : Tracing α} {y : Reading α} (h : Reports B x y) : y.outcome = x.outcome := by
  obtain ⟨indices, rfl⟩ := h.reading
  rfl

theorem mono {x : Tracing α} {y : Reading α} (h : Reports B x y)
    (weaker : ∀ site e, B site e → C site e) : Reports C x y :=
  ⟨h.reading, fun site e hx => weaker site e (h.blamed site e hx)⟩

theorem pure (a : α) : Reports B (Pure.pure a) (Pure.pure a) :=
  ⟨⟨[], rfl⟩, fun _ _ h => by cases h⟩

theorem bind_of {x : Tracing α} {y : Reading α} {f : α → Tracing β} {g : α → Reading β}
    (h : Reports B x y) (hf : ∀ a, x = .ok a → Reports B (f a) (g a)) :
    Reports B (x >>= f) (y >>= g) := by
  obtain ⟨indices, rfl⟩ := h.reading
  cases x with
  | error l =>
    refine ⟨⟨indices, rfl⟩, ?_⟩
    rintro site e ⟨⟩
    exact h.blamed site e rfl
  | ok a =>
    have next := hf a rfl
    obtain ⟨later, hg⟩ := next.reading
    refine ⟨⟨indices ++ later, ?_⟩, next.blamed⟩
    rw [diagnosis, List.append_nil, outcome_ok, Reading.ok_bind, hg, List.map_append,
      List.append_assoc]
    rfl

theorem bind {x : Tracing α} {y : Reading α} {f : α → Tracing β} {g : α → Reading β}
    (h : Reports B x y) (hf : ∀ a, Reports B (f a) (g a)) : Reports B (x >>= f) (y >>= g) :=
  h.bind_of fun a _ => hf a

/-- A step that reports nothing. -/
theorem of {cause : Cause} (silent : cause.origin = none) {x : Outcome α}
    (h : x.Raises (B (.here cause))) : Reports B (Tracing.of cause x) (liftM x) := by
  cases x with
  | ok a => exact pure a
  | error failure =>
    cases failure with
    | error e =>
      refine ⟨⟨[], ?_⟩, ?_⟩
      · change _ = Reading.mk (Located.mk (.error e) (.here cause)).diagnosis _
        rw [Located.diagnosis_here, silent]
        rfl
      · rintro site e' ⟨⟩
        exact h _ rfl
    | fault f => exact ⟨⟨[], rfl⟩, by rintro site e ⟨⟩⟩

theorem lift {x : Outcome α} (h : x.Raises (B (.here .other))) :
    Reports B (liftM x) (liftM x) :=
  of rfl h

theorem fail {e : Error} (h : B (.here .other) e) :
    Reports B (liftM (Outcome.fail e : Outcome α)) (Reading.fail e) :=
  lift (.fail h)

/-- A failure that is reported where it arises. -/
theorem raise {cause : Cause} {event : Event} {e : Error} (reported : cause.origin = some event)
    (h : B (.here cause) e) :
    Reports B (Tracing.of cause (Outcome.fail e : Outcome α))
      (Reading.emit event >>= fun _ => Reading.fail e) := by
  refine ⟨⟨[], ?_⟩, ?_⟩
  · change _ = Reading.mk (Located.mk (.error e) (.here cause)).diagnosis _
    rw [Located.diagnosis_here, reported]
    rfl
  · rintro site e' ⟨⟩
    exact h

theorem payload {x : Tracing α} {y : Reading α} (h : Reports B x y)
    (keeps : ∀ site e, B site e → C (.payload site) e) : Reports C (x.inside .payload) y := by
  obtain ⟨indices, rfl⟩ := h.reading
  cases x with
  | ok a => exact ⟨⟨indices, rfl⟩, fun _ _ h => by cases h⟩
  | error l =>
    obtain ⟨failure, site⟩ := l
    refine ⟨⟨indices, rfl⟩, ?_⟩
    rintro _ e ⟨⟩
    exact keeps site e (h.blamed site e rfl)

theorem field {name : Option String} {offset : Nat} {x : Tracing (Value × Nat)}
    {y : Reading (Value × Nat)} (h : Reports B x y)
    (keeps : ∀ site e, y.outcome = .error (.error e) → B site e →
      C (Schema.fieldSite name offset site) e) :
    Reports C (x.inside (Schema.fieldSite name offset)) (Schema.reportField name offset y) := by
  obtain ⟨indices, rfl⟩ := h.reading
  cases x with
  | ok a =>
    refine ⟨⟨indices, ?_⟩, fun _ _ h => by cases h⟩
    cases name <;> rfl
  | error l =>
    obtain ⟨failure, site⟩ := l
    refine ⟨⟨indices, ?_⟩, ?_⟩
    · cases name with
      | none => rfl
      | some name =>
        cases failure with
        | fault f => rfl
        | error e =>
          simp [inside, diagnosis, Located.diagnosis, Schema.reportField, Reading.reporting,
            Schema.fieldSite, Site.cause, Site.fields]
    · rintro _ e ⟨⟩
      exact keeps site e rfl (h.blamed site e rfl)

variable {item : Nat → Tracing (α × Nat)} {item' : Nat → Reading (α × Nat)}

theorem times (each : ∀ a, Reports B (item a) (item' a)) (n offset : Nat) :
    Reports B (times item n offset) (Reading.times item' n offset) := by
  induction n generalizing offset with
  | zero => exact .pure _
  | succ n ih =>
    rw [Reading.times_succ]
    exact (each offset).bind fun r => (ih r.2).bind fun _ => .pure _

private theorem toEndWithin (misaligned : ∀ left size, B (.here .other) (.misaligned left size))
    (each : ∀ a, Reports B (item a) (item' a)) (stop fuel offset : Nat) :
    Reports B (toEnd item stop fuel offset) (Reading.toEndWithin item' stop fuel offset) := by
  rw [toEnd, Reading.toEndWithin]
  by_cases ended : stop ≤ offset
  · rw [if_pos ended, if_pos ended]
    exact .pure _
  · rw [if_neg ended, if_neg ended]
    refine (each offset).bind fun r => ?_
    by_cases still : r.2 = offset
    · simp only [if_pos still]
      exact .fail (misaligned _ _)
    · simp only [if_neg still]
      cases fuel with
      | zero => exact .lift (.abort trivial)
      | succ fuel => exact (toEndWithin misaligned each stop fuel r.2).bind fun _ => .pure _

theorem toEnd (misaligned : ∀ left size, B (.here .other) (.misaligned left size))
    (each : ∀ a, Reports B (item a) (item' a)) (stop offset : Nat) :
    Reports B (toEnd item stop (stop - offset) offset) (Reading.toEnd item' stop offset) := by
  rw [Reading.toEnd_eq]
  exact toEndWithin misaligned each stop _ offset

end Reports

/-- `B` lets all readers that schemas are made of fail as they do, in frames too. -/
structure Fair (B : Bytes → Site → Error → Prop) : Prop where
  single : ∀ bytes e, e.isSingle = true → B bytes (.here .other) e
  excluded : ∀ bytes limit n, B bytes (.here (.excluded limit n)) (.invalidLength n)
  mismatched : ∀ bytes offset expected consumed, expected ≠ consumed →
    B bytes (.here (.mismatched offset expected consumed)) (.lengthMismatch expected consumed)
  misaligned : ∀ bytes left size, B bytes (.here .other) (.misaligned left size)
  payload : ∀ bytes start len inside, bytes.window start len = .ok inside →
    ∀ site e, B inside site e → B bytes (.payload site) e

namespace Fair

variable {B C : Bytes → Site → Error → Prop}

theorem lift (fair : Fair B) {x : Outcome α} (h : x.Single) (bytes : Bytes) :
    Reports (B bytes) (liftM x) (liftM x) :=
  .lift (h.mono (fair.single bytes))

theorem check (fair : Fair B) (limit : Limit) (n : Nat) (bytes : Bytes) :
    Reports (B bytes) (Tracing.of (.excluded limit n) (limit.check n))
      (liftM (limit.check n)) := by
  refine .of rfl ?_
  unfold Limit.check
  exact .ite (.ok _) (.fail (fair.excluded bytes limit n))

theorem and (hB : Fair B) (hC : Fair C) :
    Fair fun bytes site e => B bytes site e ∧ C bytes site e where
  single bytes e single := ⟨hB.single bytes e single, hC.single bytes e single⟩
  excluded bytes limit n := ⟨hB.excluded bytes limit n, hC.excluded bytes limit n⟩
  mismatched bytes offset a b differ :=
    ⟨hB.mismatched bytes offset a b differ, hC.mismatched bytes offset a b differ⟩
  misaligned bytes left size := ⟨hB.misaligned bytes left size, hC.misaligned bytes left size⟩
  payload bytes start len inside found site e h :=
    ⟨hB.payload bytes start len inside found site e h.1,
      hC.payload bytes start len inside found site e h.2⟩

/-- No reader below those of schemas has fields. -/
theorem fieldless : Fair fun _ site _ => site.fields = [] where
  single _ _ _ := rfl
  excluded _ _ _ := rfl
  mismatched _ _ _ _ _ := rfl
  misaligned _ _ _ := rfl
  payload _ _ _ _ _ _ _ h := h

end Fair
end Tracing

open Tracing (Reports Fair)

variable {α : Type} {B : Bytes → Site → Error → Prop}

theorem Tracing.of_eq_ok {cause : Cause} {x : Outcome α} {a : α}
    (h : Tracing.of cause x = .ok a) : x = .ok a := by
  cases x with
  | ok b =>
    cases h
    rfl
  | error e => cases h

theorem Frame.trace_reports (fair : Fair B) {header : Bytes → Nat → Tracing (Nat × Nat)}
    {header' : Bytes → Nat → Reading (Nat × Nat)} {payload : Bytes → Nat → Tracing (α × Nat)}
    {payload' : Bytes → Nat → Reading (α × Nat)}
    (hheader : ∀ bytes offset, Reports (B bytes) (header bytes offset) (header' bytes offset))
    (hpayload : ∀ bytes offset, Reports (B bytes) (payload bytes offset) (payload' bytes offset))
    (limit : Limit) (bytes : Bytes) (offset : Nat) :
    Reports (B bytes) (Frame.trace header limit payload bytes offset)
      (Frame.read header' limit payload' bytes offset) := by
  apply (hheader bytes offset).bind
  intro r
  apply (fair.check limit r.1 bytes).bind
  intro _
  apply (fair.lift (bytes.window_single r.2 r.1) bytes).bind_of
  intro inside hinside
  have found := Tracing.of_eq_ok hinside
  apply ((hpayload inside 0).payload (fair.payload bytes r.2 r.1 inside found)).bind
  intro s
  by_cases same : s.2 = r.1
  · simp only [if_pos same]
    exact (fair.lift (checkedAdd_single r.2 r.1) bytes).bind fun _ => .pure _
  · simp only [if_neg same]
    exact .raise rfl (fair.mismatched bytes offset r.1 s.2 (Ne.symm same))

namespace Header

private theorem count_reports (fair : Fair B) {x : Tracing (Int × Nat)} {y : Reading (Int × Nat)}
    {bytes : Bytes} (h : Reports (B bytes) x y) :
    Reports (B bytes)
      (do
        let (v, stop) ← x
        return (← toCount v, stop))
      (do
        let (v, stop) ← y
        return (← toCount v, stop)) :=
  h.bind fun r => (fair.lift (toCount_single r.1) bytes).bind fun _ => .pure _

theorem trace_reports (fair : Fair B) (header : Header) (bytes : Bytes) (offset : Nat) :
    Reports (B bytes) (header.trace bytes offset) (header.read bytes offset) := by
  induction header generalizing bytes offset with
  | plain format => exact fair.lift (format.read_single bytes offset) bytes
  | framed inner header limit hinner hheader =>
    exact Frame.trace_reports fair (fun bytes offset => count_reports fair (hheader bytes offset))
      hinner limit bytes offset

theorem traceCount_reports (fair : Fair B) (header : Header) (bytes : Bytes) (offset : Nat) :
    Reports (B bytes) (header.traceCount bytes offset) (header.readCount bytes offset) :=
  count_reports fair (header.trace_reports fair bytes offset)

end Header

theorem Length.traceCount_reports (fair : Fair B) (length : Length) (limit : Limit)
    (bytes : Bytes) (offset : Nat) :
    Reports (B bytes) (length.traceCount limit bytes offset)
      (length.readCount limit bytes offset) := by
  cases length with
  | fixed n => exact .pure _
  | counted header =>
    apply (header.traceCount_reports fair bytes offset).bind
    intro r
    exact (fair.check limit r.1 bytes).bind fun _ => .pure _
  | remainder => exact .pure _

theorem Slot.trace_reports (fair : Fair B) (slot : Slot) (bytes : Bytes) (offset : Nat) :
    Reports (B bytes) (slot.trace bytes offset) (slot.read bytes offset) := by
  unfold Slot.trace Slot.read
  cases slot.length with
  | fixed n =>
    apply (fair.lift (bytes.window_single offset n) bytes).bind
    intro found
    exact (fair.lift (checkedAdd_single offset n) bytes).bind fun _ => .pure _
  | counted header =>
    apply (header.traceCount_reports fair bytes offset).bind
    intro r
    apply (fair.check slot.limit r.1 bytes).bind
    intro _
    apply (fair.lift (bytes.window_single r.2 r.1) bytes).bind
    intro found
    exact (fair.lift (checkedAdd_single r.2 r.1) bytes).bind fun _ => .pure _
  | remainder =>
    apply (fair.lift (bytes.window_single offset _) bytes).bind
    intro found
    exact (fair.lift (checkedAdd_single offset found.size) bytes).bind fun _ => .pure _

theorem Items.trace_reports (fair : Fair B) {item : Nat → Tracing (α × Nat)}
    {item' : Nat → Reading (α × Nat)} {bytes : Bytes}
    (each : ∀ a, Reports (B bytes) (item a) (item' a)) (length : Length) (limit : Limit)
    {size : Outcome Size} (sums : size.OnlyOverflows) (offset : Nat) :
    Reports (B bytes) (Items.trace length limit size item bytes offset)
      (Items.read length limit size item' bytes offset) := by
  have sized : size.Raises (B bytes (.here .other)) := sums.mono fun _ h => h ▸ trivial
  apply (length.traceCount_reports fair limit bytes offset).bind
  rintro ⟨count, start⟩
  cases count with
  | some n => exact (Reports.lift sized).bind fun _ => .times each n start
  | none =>
    apply (fair.lift (bytes.window_single start _) bytes).bind
    intro rest
    apply (Reports.lift sized).bind
    intro size
    cases size with
    | varying => exact .toEnd (fair.misaligned bytes) each bytes.size start
    | fixed n =>
      by_cases misaligned : 0 < n ∧ rest.size % n ≠ 0
      · simp only [if_pos misaligned]
        exact .fail (fair.misaligned bytes rest.size n)
      · simp only [if_neg misaligned]
        exact .toEnd (fair.misaligned bytes) each bytes.size start

theorem Association.gather_reports {B : Site → Error → Prop} (kind : MapKind)
    (pairs : List (Value × Value)) :
    Reports B (pure (Association.ofPairs kind pairs)) (Association.gather kind pairs) := by
  obtain ⟨indices, hgather, -⟩ := Association.gather_repeats kind pairs
  refine ⟨⟨indices, ?_⟩, fun _ _ h => by cases h⟩
  rw [hgather]
  exact congrArg (Reading.mk · _) (List.append_nil _).symm

namespace Schema

/-- What the cause says about the error, and about the schema that raised it. -/
def Explains (s : Schema) (cause : Cause) (e : Error) : Prop :=
  match cause with
  | .excluded _ n => e = .invalidLength n
  | .undeclared tag _ =>
    e = .unknownTag tag ∧
      ∃ header variants, union header variants ∈ s.nodes ∧ ∀ v ∈ variants, v.tag ≠ tag
  | .mismatched _ expected consumed =>
    e = .lengthMismatch expected consumed ∧ expected ≠ consumed
  | .other =>
    (∀ expected found, e ≠ .lengthMismatch expected found) ∧
      ∀ tag, e = .unknownTag tag → 2 ≤ tag ∧ ∃ header inner, option header inner ∈ s.nodes

/-- Each field around the failure belongs to a record inside the schema, and reading it where it
starts fails with the error.  A payload is a part of the bytes that it is in. -/
def Leads (e : Error) : Site → Schema → Bytes → Prop
  | .here _, _, _ => True
  | .payload inside, s, bytes =>
    ∃ start len found, bytes.window start len = .ok found ∧ Leads e inside s found
  | .field name offset inside, s, bytes =>
    ∃ fields, record fields ∈ s.nodes ∧ ∃ f ∈ fields, f.name = some name ∧
      (f.schema.read bytes offset).outcome = .error (.error e) ∧ Leads e inside f.schema bytes

structure Blames (s : Schema) (bytes : Bytes) (site : Site) (e : Error) : Prop where
  explained : s.Explains site.cause e
  leads : Leads e site s bytes

variable {s t u : Schema} {bytes : Bytes} {site : Site} {e : Error}

private theorem explains_other (noFrame : ∀ expected found, e ≠ .lengthMismatch expected found)
    (noTag : ∀ tag, e ≠ .unknownTag tag) : s.Explains .other e :=
  ⟨noFrame, fun tag h => absurd h (noTag tag)⟩

private theorem explains_single (single : e.isSingle = true) : s.Explains .other e := by
  refine explains_other ?_ ?_
  · rintro _ _ rfl
    cases single
  · rintro _ rfl
    cases single

theorem blames_fair (s : Schema) : Fair s.Blames where
  single _ _ single := ⟨explains_single single, trivial⟩
  excluded _ _ _ := ⟨rfl, trivial⟩
  mismatched _ _ _ _ differ := ⟨⟨rfl, differ⟩, trivial⟩
  misaligned _ _ _ := ⟨explains_other (by simp) (by simp), trivial⟩
  payload _ start len inside found _ _ h := ⟨h.explained, start, len, inside, found, h.leads⟩

private theorem mem_nodes_of_part (isPart : u ∈ s.parts) (h : t ∈ u.nodes) : t ∈ s.nodes :=
  nodes_eq s ▸ List.mem_cons_of_mem s (List.mem_flatMap_of_mem isPart h)

private theorem Explains.whole {cause : Cause} (h : u.Explains cause e) (isPart : u ∈ s.parts) :
    s.Explains cause e := by
  cases cause with
  | excluded | mismatched => exact h
  | undeclared tag offset =>
    obtain ⟨he, header, variants, isNode, undeclared⟩ := h
    exact ⟨he, header, variants, mem_nodes_of_part isPart isNode, undeclared⟩
  | other =>
    refine ⟨h.1, fun tag he => ?_⟩
    obtain ⟨large, header, inner, isNode⟩ := h.2 tag he
    exact ⟨large, header, inner, mem_nodes_of_part isPart isNode⟩

private theorem Leads.whole (h : Leads e site u bytes) (isPart : u ∈ s.parts) :
    Leads e site s bytes := by
  induction site generalizing bytes with
  | here cause => trivial
  | payload inside ih =>
    obtain ⟨start, len, found, hwindow, leads⟩ := h
    exact ⟨start, len, found, hwindow, ih leads⟩
  | field name offset inside =>
    obtain ⟨fields, isNode, rest⟩ := h
    exact ⟨fields, mem_nodes_of_part isPart isNode, rest⟩

/-- What a part is to blame for, the whole is. -/
theorem Blames.whole (h : u.Blames bytes site e) (isPart : u ∈ s.parts) : s.Blames bytes site e :=
  ⟨h.explained.whole isPart, h.leads.whole isPart⟩

/-- The walk through the schema tells what its reader reports. -/
def TraceReports (s : Schema) : Prop :=
  ∀ bytes offset, Reports (s.Blames bytes) (s.trace bytes offset) (s.read bytes offset)

private theorem TraceReports.part (h : u.TraceReports) (isPart : u ∈ s.parts) (bytes : Bytes)
    (offset : Nat) : Reports (s.Blames bytes) (u.trace bytes offset) (u.read bytes offset) :=
  (h bytes offset).mono fun _ _ blames => blames.whole isPart

/-- Without fields on the way it does not matter what the error is. -/
private theorem Leads.of_fieldless {e' : Error} (h : Leads e site s bytes)
    (fieldless : site.fields = []) : Leads e' site s bytes := by
  induction site generalizing bytes with
  | here cause => trivial
  | payload inside ih =>
    obtain ⟨start, len, found, hwindow, leads⟩ := h
    exact ⟨start, len, found, hwindow, ih leads fieldless⟩
  | field name offset inside => cases fieldless

private theorem Explains.invalidBool {cause : Cause} {format : String} {v min max : Int}
    (h : s.Explains cause (.intOutOfRange format v min max)) : s.Explains cause .invalidBool := by
  cases cause with
  | excluded => cases h
  | undeclared | mismatched => cases h.1
  | other => exact explains_other (by simp) (by simp)

private theorem traceBool_reports (header : Header) (bytes : Bytes) (offset : Nat) :
    Reports ((bool header).Blames bytes) (traceBool header bytes offset)
      (readBool header bytes offset) := by
  have fair := (bool header).blames_fair
  have count := header.traceCount_reports (fair.and .fieldless) bytes offset
  obtain ⟨indices, hread⟩ := count.reading
  unfold traceBool readBool
  cases traced : header.traceCount bytes offset with
  | ok r =>
    rw [hread, traced]
    match r with
    | (0, stop) => exact ⟨⟨indices, rfl⟩, by rintro _ _ ⟨⟩⟩
    | (1, stop) => exact ⟨⟨indices, rfl⟩, by rintro _ _ ⟨⟩⟩
    | (n + 2, stop) =>
      refine ⟨⟨indices, rfl⟩, ?_⟩
      rintro _ _ ⟨⟩
      exact fair.single bytes _ rfl
  | error l =>
    obtain ⟨failure, site⟩ := l
    rw [hread, traced]
    cases failure with
    | fault f => exact ⟨⟨indices, rfl⟩, by rintro _ _ ⟨⟩⟩
    | error e =>
      obtain ⟨blames, fieldless⟩ := count.blamed site e traced
      cases e with
      | intOutOfRange =>
        refine ⟨⟨indices, ?_⟩, ?_⟩
        · simp [Tracing.diagnosis, Located.diagnosis, fieldless, asBoolFailure, Outcome.fail]
        · rintro _ _ ⟨⟩
          exact ⟨blames.explained.invalidBool, blames.leads.of_fieldless fieldless⟩
      | _ =>
        refine ⟨⟨indices, rfl⟩, ?_⟩
        rintro _ _ ⟨⟩
        exact blames

/-- A field with a name is one more on the way. -/
private theorem Blames.field {fields : List (Field Schema)} {f : Field Schema} {offset : Nat}
    (hf : f ∈ fields) (fails : (f.schema.read bytes offset).outcome = .error (.error e))
    (h : f.schema.Blames bytes site e) :
    (record fields).Blames bytes (fieldSite f.name offset site) e := by
  have isPart : f.schema ∈ (record fields).parts := List.mem_map_of_mem hf
  cases hname : f.name with
  | none => exact h.whole isPart
  | some name =>
    refine ⟨h.explained.whole isPart, fields, ?_, f, hf, hname, fails, h.leads⟩
    exact nodes_eq _ ▸ List.mem_cons_self

private theorem traceFields_reports {all fields : List (Field Schema)}
    (each : ∀ f ∈ fields, f ∈ all ∧ f.schema.TraceReports) (bytes : Bytes) (offset : Nat) :
    Reports ((record all).Blames bytes) (traceFields fields bytes offset)
      (readFields fields bytes offset) := by
  induction fields generalizing offset with
  | nil => exact .pure _
  | cons f fields ih =>
    obtain ⟨hf, head⟩ := each f List.mem_cons_self
    have tail := ih fun g hg => each g (List.mem_cons_of_mem f hg)
    apply ((head bytes offset).field fun _ _ => Blames.field hf).bind
    intro r
    exact (tail r.2).bind fun _ => .pure _

private theorem traceCase_reports {s : Schema} {tag : Nat} {variants : List (Variant Schema)}
    {bytes : Bytes}
    (each : ∀ v ∈ variants, ∀ offset,
      Reports (s.Blames bytes) (v.schema.trace bytes offset) (v.schema.read bytes offset))
    (undeclared : (∀ v ∈ variants, v.tag ≠ tag) →
      ∀ offset, s.Blames bytes (.here (.undeclared tag offset)) (.unknownTag tag))
    (offset : Nat) :
    Reports (s.Blames bytes) (traceCase tag variants bytes offset)
      (readCase tag variants bytes offset) := by
  induction variants with
  | nil => exact .raise rfl (undeclared (by simp) offset)
  | cons v variants ih =>
    rw [traceCase, readCase]
    by_cases same : v.tag = tag
    · rw [if_pos same, if_pos same]
      exact (each v List.mem_cons_self offset).bind fun _ => .pure _
    · rw [if_neg same, if_neg same]
      refine ih (fun w hw => each w (List.mem_cons_of_mem v hw)) fun others => undeclared ?_
      exact List.forall_mem_cons.mpr ⟨same, others⟩

private theorem tracePair_reports {B : Site → Error → Prop} {key value : Schema}
    (hkey : ∀ offset, Reports B (key.trace bytes offset) (key.read bytes offset))
    (hvalue : ∀ offset, Reports B (value.trace bytes offset) (value.read bytes offset))
    (offset : Nat) :
    Reports B (tracePair (key.trace bytes) (value.trace bytes) offset)
      (do
        let (k, middle) ← key.read bytes offset
        let (v, stop) ← value.read bytes middle
        return ((k, v), stop)) := by
  apply (hkey offset).bind
  intro r
  exact (hvalue r.2).bind fun _ => .pure _

theorem traceReports (s : Schema) : s.TraceReports := by
  induction s with
  | int format =>
    intro bytes offset
    rw [trace, read]
    exact ((blames_fair _).lift (format.read_single bytes offset) bytes).bind fun _ => .pure _
  | float precision order =>
    intro bytes offset
    rw [trace, read]
    have single := Floating.read_single precision order bytes offset
    exact ((blames_fair _).lift single bytes).bind fun _ => .pure _
  | bool header =>
    intro bytes offset
    rw [trace, read]
    exact traceBool_reports header bytes offset
  | slot content shape =>
    intro bytes offset
    rw [trace, read]
    apply (shape.trace_reports (blames_fair _) bytes offset).bind
    intro r
    exact ((blames_fair _).lift (content.ofBytes_single r.1) bytes).bind fun _ => .pure _
  | constant expected =>
    intro bytes offset
    rw [trace, read]
    have fair := (constant expected).blames_fair
    apply (fair.lift (bytes.window_single offset expected.length) bytes).bind
    intro found
    by_cases same : found.toList = expected
    · rw [if_pos same, if_pos same]
      exact (fair.lift (checkedAdd_single offset expected.length) bytes).bind fun _ => .pure _
    · rw [if_neg same, if_neg same]
      exact .fail (fair.single bytes _ rfl)
  | record fields each =>
    intro bytes offset
    rw [trace, read]
    exact (traceFields_reports (fun f hf => ⟨hf, each f hf⟩) bytes offset).bind fun _ => .pure _
  | array item length limit hitem =>
    intro bytes offset
    rw [trace, read]
    have items := hitem.part (s := array item length limit) List.mem_cons_self bytes
    exact (Items.trace_reports (blames_fair _) items length limit item.size_overflows
      offset).bind fun _ => .pure _
  | map kind key value length limit hkey hvalue =>
    intro bytes offset
    rw [trace, read]
    have fair := (map kind key value length limit).blames_fair
    have pairs := tracePair_reports (B := (map kind key value length limit).Blames bytes)
      (hkey.part List.mem_cons_self bytes)
      (hvalue.part (List.mem_cons_of_mem _ List.mem_cons_self) bytes)
    apply (Items.trace_reports fair pairs length limit (pairSize_overflows key value) offset).bind
    intro r
    change Reports _ (pure (Association.ofPairs kind r.1) >>= fun entries =>
      pure (Value.map entries, r.2)) _
    exact (Association.gather_reports kind r.1).bind fun _ => .pure _
  | option header inner hinner =>
    intro bytes offset
    rw [trace, read]
    apply (header.traceCount_reports (blames_fair _) bytes offset).bind
    intro r
    match r with
    | (0, stop) => exact .pure _
    | (1, middle) => exact (hinner.part List.mem_cons_self bytes middle).bind fun _ => .pure _
    | (tag + 2, middle) =>
      refine .fail ⟨⟨by simp, ?_⟩, trivial⟩
      rintro _ ⟨⟩
      exact ⟨Nat.le_add_left 2 tag, header, inner, nodes_eq _ ▸ List.mem_cons_self⟩
  | union header variants each =>
    intro bytes offset
    rw [trace, read]
    apply (header.traceCount_reports (blames_fair _) bytes offset).bind
    intro r
    refine traceCase_reports (fun v hv => ?_) ?_ r.2
    · exact (each v hv).part (List.mem_map_of_mem hv) bytes
    · intro undeclared stop
      exact ⟨⟨rfl, header, variants, nodes_eq _ ▸ List.mem_cons_self, undeclared⟩, trivial⟩
  | framed inner header limit hinner =>
    intro bytes offset
    rw [trace, read]
    have fair := (framed inner header limit).blames_fair
    exact Frame.trace_reports fair (header.traceCount_reports fair)
      (hinner.part List.mem_cons_self) limit bytes offset
  | converted conversion inner hinner =>
    intro bytes offset
    rw [trace, read]
    exact (hinner.part List.mem_cons_self bytes offset).bind fun _ => .pure _

/-- The walk that keeps the places answers what reading does. -/
theorem trace_outcome (s : Schema) (bytes : Bytes) (offset : Nat) :
    (s.trace bytes offset).outcome = (s.read bytes offset).outcome :=
  (s.traceReports bytes offset).outcome.symm

end Schema
end ByteSchema
