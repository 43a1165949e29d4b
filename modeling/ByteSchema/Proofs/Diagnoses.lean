import ByteSchema.Message
import ByteSchema.Proofs.FailureReports
import ByteSchema.Proofs.Normalising

/-!
# What the log says of a failure

The log shows the events of a reading in words.  Whoever looks at the log of a reading that failed
finds there what failed, in which fields, and the error that the reading answers.
-/
namespace ByteSchema

/-- An event as a log shows it. -/
structure Notice where
  level : Level
  message : String
  attributes : List (String × String)
  deriving DecidableEq, Repr

def Event.notice (event : Event) : Notice := ⟨event.level, event.message, event.attributes⟩

namespace Notice

def overwritten (index : Nat) : Notice :=
  ⟨.trace, "duplicate map key overwritten", [("index", toString index)]⟩

/-- What the log says first of a failure.  Most causes have nothing there. -/
def origin : Cause → List Notice
  | .undeclared tag offset =>
    [⟨.debug, "invalid discriminant", [("tag", toString tag), ("offset", toString offset)]⟩]
  | .mismatched offset expected consumed =>
    [⟨.debug, "size prefix mismatch",
      [("offset", toString offset), ("expected", toString expected),
        ("consumed", toString consumed)]⟩]
  | .excluded .. | .other => []

/-- What the log says of each field around a failure. -/
def failedField (e : Error) (name : String) (offset : Nat) : Notice :=
  ⟨.debug, "failed to decode field",
    [("field", name), ("offset", toString offset), ("err", e.message)]⟩

end Notice

private theorem Located.notices (e : Error) (site : Site) :
    (Located.mk (.error e) site).diagnosis.map Event.notice =
      Notice.origin site.cause ++
        site.fields.reverse.map fun f => Notice.failedField e f.1 f.2 := by
  have origin : site.cause.origin.toList.map Event.notice = Notice.origin site.cause := by
    cases site.cause <;> rfl
  rw [diagnosis, List.map_append, origin, List.map_map]
  rfl

namespace Schema

/-- The log of a reading has the overwritten keys and then the failure, if there is one: its
origin, and the fields with a name that it lies in, the innermost first. -/
theorem read_diagnosed (s : Schema) (bytes : Bytes) (offset : Nat) :
    ∃ (indices : List Nat) (diagnosis : List Notice),
      (s.read bytes offset).events.map Event.notice =
        indices.map Notice.overwritten ++ diagnosis ∧
      (∀ r, (s.read bytes offset).outcome = .ok r → diagnosis = []) ∧
      ∀ e, (s.read bytes offset).outcome = .error (.error e) → ∃ site,
        s.trace bytes offset = .error ⟨.error e, site⟩ ∧ s.Blames bytes site e ∧
        diagnosis = Notice.origin site.cause ++
          site.fields.reverse.map fun f => Notice.failedField e f.1 f.2 := by
  have reports := s.traceReports bytes offset
  obtain ⟨indices, hread⟩ := reports.reading
  refine ⟨indices, (s.trace bytes offset).diagnosis.map Event.notice, ?_, ?_, ?_⟩
  · rw [hread, List.map_append, List.map_map]
    rfl
  · intro r answered
    rw [← trace_outcome] at answered
    rw [Tracing.eq_ok_of_outcome answered]
    rfl
  · intro e failed
    rw [← trace_outcome] at failed
    cases traced : s.trace bytes offset with
    | ok r =>
      rw [traced] at failed
      cases failed
    | error l =>
      rw [traced] at failed
      obtain ⟨failure, site⟩ := l
      cases failed
      exact ⟨site, rfl, reports.blamed site e traced, Located.notices e site⟩

/-- A ledger and its number. -/
def book : Schema := struct [("number", int (.word false .one .big)), ("ledger", ledger)]

set_option maxRecDepth 4000 in
example : (book.read #[5, 1, 10, 3, 2, 5, 1, 6, 2, 7, 1, 8, 9] 0).events =
    [.keyOverwritten 2, .tagUnknown 9 10, .fieldFailed "moves" 7 (.unknownTag 9),
      .fieldFailed "ledger" 1 (.unknownTag 9)] := by decide

set_option maxRecDepth 4000 in
/-- The ledger has an owner twice, and a move of an unknown kind behind the last one. -/
theorem read_diagnosed_book :
    (∃ indices : List Nat,
      (book.read #[5, 1, 10, 3, 2, 5, 1, 6, 2, 7, 1, 8, 9] 0).events.map Event.notice =
        indices.map Notice.overwritten ++
          [⟨.debug, "invalid discriminant", [("tag", "9"), ("offset", "10")]⟩,
            Notice.failedField (.unknownTag 9) "moves" 7,
            Notice.failedField (.unknownTag 9) "ledger" 1]) ∧
    ∃ indices : List Nat,
      (book.read #[5, 1, 10, 3, 2, 5, 1, 6, 2, 7, 1, 8, 0] 0).events.map Event.notice =
        indices.map Notice.overwritten := by
  constructor
  · obtain ⟨indices, diagnosis, events, -, failed⟩ :=
      read_diagnosed book #[5, 1, 10, 3, 2, 5, 1, 6, 2, 7, 1, 8, 9] 0
    obtain ⟨site, traced, -, rfl⟩ := failed (.unknownTag 9) rfl
    have place : (book.trace #[5, 1, 10, 3, 2, 5, 1, 6, 2, 7, 1, 8, 9] 0).located =
        some ⟨.error (.unknownTag 9),
          .field "ledger" 1 (.payload (.field "moves" 7 (.here (.undeclared 9 10))))⟩ := by decide
    rw [traced] at place
    cases place
    exact ⟨indices, events⟩
  · obtain ⟨indices, diagnosis, events, answered, -⟩ :=
      read_diagnosed book #[5, 1, 10, 3, 2, 5, 1, 6, 2, 7, 1, 8, 0] 0
    rw [answered _ rfl, List.append_nil] at events
    exact ⟨indices, events⟩

end Schema
end ByteSchema
