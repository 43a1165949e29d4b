import ByteSchema.Proofs.FailureReports
import ByteSchema.Proofs.FaultlessReading

/-!
# Bytes in front of the offset

Reading does not look back.  Two runs of a reader, the second with more bytes in front of the
first one's input, go through the same steps: what they have read stays equal, and so does the
distance between where they stand.  The second run's errors are those of the first, but for the
offset of missing bytes; inside of a frame that offset is the same too.
-/
namespace ByteSchema

variable {α β γ δ : Type}

/-- The failure when `d` more bytes stand in front. -/
def Failure.behind (d : Nat) : Failure → Failure
  | .error (.endOfInput expected offset remaining) =>
    .error (.endOfInput expected (d + offset) remaining)
  | e => e

def Outcome.behind (d : Nat) (x : Outcome α) : Outcome α := x.mapError (Failure.behind d)

/-- Offsets in a payload are counted from its start. -/
def Located.behind (d : Nat) (l : Located) : Failure :=
  if l.site.framed then l.failure else l.failure.behind d

/-- What knows no place fails the same way everywhere. -/
theorem Outcome.FailsOnly.behind {x : Outcome α} {d : Nat}
    (placeless : x.FailsOnly fun e => e.behind d = e) : x.behind d = x := by
  cases x with
  | ok a => rfl
  | error e => exact congrArg Except.error (placeless e rfl)

theorem Outcome.OnlyOverflows.behind {x : Outcome α} (h : x.OnlyOverflows) (d : Nat) :
    x.behind d = x :=
  FailsOnly.behind (h.mono fun
    | _, rfl => rfl)

/-- The same result of two readings, the second of which ends `d` bytes further back. -/
def Shifted (d : Nat) (r s : α × Nat) : Prop := s = (r.1, d + r.2) ∧ d + r.2 < addressSpace

namespace Tracing

/-- The second step does what the first does when `d` more bytes stand in front. -/
def Alongside (d : Nat) (R : α → β → Prop) : Tracing α → Tracing β → Prop
  | .ok a, .ok b => R a b
  | .error l, .error m => m.failure = l.behind d
  | _, _ => False

/-- Two readers of which the second has `d` more bytes in front. -/
def Follows (d : Nat) (read read' : Nat → Tracing (α × Nat)) : Prop :=
  ∀ a, d + a < addressSpace → Alongside d (Shifted d) (read a) (read' (d + a))

theorem lift_bind (x : Outcome α) (f : α → Outcome β) :
    (liftM (x >>= f) : Tracing β) = liftM x >>= fun a => liftM (f a) := by
  cases x <;> rfl

namespace Alongside

variable {d : Nat} {R : α → β → Prop} {S : γ → δ → Prop}

theorem ok_or_error {x : Tracing α} {y : Tracing β} (h : Alongside d R x y) :
    (∃ a b, x = .ok a ∧ y = .ok b ∧ R a b) ∨
      ∃ l m, x = .error l ∧ y = .error m ∧ m.failure = l.behind d := by
  cases x with
  | ok a =>
    cases y with
    | ok b => exact .inl ⟨a, b, rfl, rfl, h⟩
    | error m => exact h.elim
  | error l =>
    cases y with
    | ok b => exact h.elim
    | error m => exact .inr ⟨l, m, rfl, rfl, h⟩

theorem bind {x : Tracing α} {y : Tracing β} {f : α → Tracing γ} {g : β → Tracing δ}
    (h : Alongside d R x y) (hf : ∀ a b, R a b → Alongside d S (f a) (g b)) :
    Alongside d S (x >>= f) (y >>= g) := by
  rcases h.ok_or_error with ⟨a, b, rfl, rfl, h⟩ | ⟨l, m, rfl, rfl, h⟩
  · exact hf a b h
  · exact h

theorem same_bind {x y : Tracing α} {f : α → Tracing γ} {g : α → Tracing δ}
    (h : Alongside d Eq x y) (hf : ∀ a, Alongside d S (f a) (g a)) :
    Alongside d S (x >>= f) (y >>= g) := by
  apply h.bind
  intro a b same
  subst same
  exact hf a

theorem read_bind {x y : Tracing (α × Nat)} {f : α × Nat → Tracing γ} {g : α × Nat → Tracing δ}
    (h : Alongside d (Shifted d) x y)
    (hf : ∀ a n, d + n < addressSpace → Alongside d S (f (a, n)) (g (a, d + n))) :
    Alongside d S (x >>= f) (y >>= g) := by
  apply h.bind
  intro r s shifted
  rw [shifted.1]
  exact hf r.1 r.2 shifted.2

/-- The bind rule for a step that knows no place; what follows may use what the step answered. -/
theorem lift_bind {x y : Outcome α} {f : α → Tracing γ} {g : α → Tracing δ}
    (same : y = x.behind d) (hf : ∀ a, x = .ok a → Alongside d S (f a) (g a)) :
    Alongside d S (liftM x >>= f) (liftM y >>= g) := by
  subst same
  cases x with
  | ok a => exact hf a rfl
  | error e => exact rfl

theorem stop {n : Nat} (a : α) (address : d + n < addressSpace) :
    Alongside d (Shifted d) (pure (a, n)) (pure (a, d + n)) :=
  ⟨rfl, address⟩

/-- What was read may be wrapped up. -/
theorem wrap {x y : Tracing (α × Nat)} (h : Alongside d (Shifted d) x y) (f : α → β) :
    Alongside d (Shifted d) (x >>= fun r => pure (f r.1, r.2))
      (y >>= fun r => pure (f r.1, r.2)) := by
  apply h.read_bind
  intro a n address
  exact .stop (f a) address

theorem sum {a b : Nat} {f : Nat → Tracing γ} {g : Nat → Tracing δ}
    (address : d + (a + b) < addressSpace)
    (h : Alongside d S (f (a + b)) (g (d + (a + b)))) :
    Alongside d S (liftM (checkedAdd a b) >>= f) (liftM (checkedAdd (d + a) b) >>= g) := by
  rw [checkedAdd_eq_ok_iff.mpr ⟨by omega, rfl⟩, checkedAdd_eq_ok_iff.mpr ⟨by omega, rfl⟩,
    Nat.add_assoc]
  exact h

theorem of {x : Outcome α} (same : x.behind d = x) (cause cause' : Cause) :
    Alongside d Eq (Tracing.of cause x) (Tracing.of cause' x) := by
  cases x with
  | ok a => rfl
  | error e =>
    have fixed : e.behind d = e := Except.error.inj same
    change e = e.behind d
    exact fixed.symm

theorem inside {x : Tracing α} {y : Tracing β} {place place' : Site → Site}
    (unframed : ∀ site, (place site).framed = site.framed) (h : Alongside d R x y) :
    Alongside d R (x.inside place) (y.inside place') := by
  rcases h.ok_or_error with ⟨a, b, rfl, rfl, h⟩ | ⟨l, m, rfl, rfl, h⟩
  · exact h
  · change m.failure = if (place l.site).framed then _ else _
    rw [unframed]
    exact h

/-- In a payload the two runs are one. -/
theorem payload (x : Tracing α) : Alongside d Eq (x.inside .payload) (x.inside .payload) := by
  cases x <;> rfl

end Alongside

namespace Follows

variable {d : Nat} {item item' : Nat → Tracing (α × Nat)} (follows : Follows d item item')

include follows in
theorem times (n : Nat) : Follows d (times item n) (times item' n) := by
  induction n with
  | zero => exact fun a address => .stop [] address
  | succ n ih =>
    intro a address
    apply (follows a address).read_bind
    intro x next address
    exact (ih next address).wrap (x :: ·)

include follows in
/-- The distance to the end is the same in both runs, and with it the room that is left. -/
theorem toEnd (stop fuel : Nat) :
    Follows d (toEnd item stop fuel) (toEnd item' (d + stop) fuel) := by
  induction fuel using Nat.strong_induction_on with
  | _ fuel ih =>
    intro a address
    rw [Tracing.toEnd, Tracing.toEnd]
    by_cases ended : stop ≤ a
    · rw [if_pos ended, if_pos (Nat.add_le_add_left ended d)]
      exact .stop [] address
    · rw [if_neg ended, if_neg fun le => ended (Nat.le_of_add_le_add_left le)]
      apply (follows a address).read_bind
      intro x next address
      by_cases same : next = a
      · simp only [same, if_true, Nat.add_sub_add_left]
        rfl
      · simp only [same, Nat.add_left_cancel_iff, if_false]
        cases fuel with
        | zero => rfl
        | succ fuel =>
          exact (ih fuel (Nat.lt_succ_self fuel) next address).wrap (x :: ·)

end Follows
end Tracing

open Tracing

private theorem toCount_behind (v : Int) (d : Nat) :
    (Header.toCount v).behind d = Header.toCount v :=
  Outcome.FailsOnly.behind (.ite (.ok _) (.fail rfl))

private theorem check_behind (limit : Limit) (n d : Nat) :
    (limit.check n).behind d = limit.check n :=
  Outcome.FailsOnly.behind (.ite (.ok _) (.fail rfl))

private theorem ofBytes_behind (content : Content) (bs : List UInt8) (d : Nat) :
    (content.ofBytes bs).behind d = content.ofBytes bs :=
  Outcome.FailsOnly.behind <| (content.ofBytes_failsOnly bs).mono fun
    | _, ⟨_, _, rfl⟩ => rfl

variable {front bytes : Bytes} (room : (front ++ bytes).size < addressSpace)

namespace Bytes

private theorem extract_behind (front bytes : Bytes) (a b : Nat) :
    (front ++ bytes).extract (front.size + a) (front.size + b) = bytes.extract a b := by
  rw [Array.extract_append, Array.extract_eq_empty_of_le, Array.empty_append,
    Nat.add_sub_cancel_left, Nat.add_sub_cancel_left]
  omega

include room in
theorem window_behind (offset len : Nat) :
    (front ++ bytes).window (front.size + offset) len =
      (bytes.window offset len).behind front.size := by
  rw [Array.size_append] at room
  unfold window
  rw [Array.size_append, Nat.add_sub_add_left]
  by_cases short : bytes.size - offset < len ∨ bytes.size < offset
  · have short' : bytes.size - offset < len ∨ front.size + bytes.size < front.size + offset := by
      omega
    rw [if_pos short, if_pos short']
    rfl
  · have long : ¬ (bytes.size - offset < len ∨ front.size + bytes.size < front.size + offset) := by
      omega
    have stop : checkedAdd offset len = .ok (offset + len) :=
      checkedAdd_eq_ok_iff.mpr ⟨by omega, rfl⟩
    have stop' : checkedAdd (front.size + offset) len = .ok (front.size + (offset + len)) :=
      checkedAdd_eq_ok_iff.mpr ⟨by omega, by omega⟩
    rw [if_neg short, if_neg long, slice, slice, stop, stop']
    change (if _ then _ else _) = Outcome.behind _ (if _ then _ else _)
    rw [if_pos (show offset + len ≤ bytes.size by omega), Array.size_append,
      if_pos (show front.size + (offset + len) ≤ front.size + bytes.size by omega),
      extract_behind]
    rfl

include room in
theorem rest_behind (offset : Nat) :
    (front ++ bytes).rest (front.size + offset) = (bytes.rest offset).behind front.size := by
  unfold rest
  rw [window_behind room, Array.size_append, Nat.add_sub_add_left]

end Bytes

include room in
/-- The end of bytes that are there is an address in both runs. -/
private theorem end_address {offset len : Nat} {found : Bytes}
    (h : bytes.window offset len = .ok found) : front.size + (offset + len) < addressSpace := by
  have inside := (Bytes.window_spans h).1.inside
  rw [Array.size_append] at room
  omega

include room in
/-- Bytes that are taken as they stand. -/
private theorem taken_alongside (f : Bytes → α) (offset len : Nat) :
    Alongside front.size (Shifted front.size)
      (do
        let found ← bytes.window offset len
        return (f found, ← checkedAdd offset len))
      (do
        let found ← (front ++ bytes).window (front.size + offset) len
        return (f found, ← checkedAdd (front.size + offset) len)) := by
  apply Alongside.lift_bind (Bytes.window_behind room offset len)
  intro found h
  have next := end_address room h
  exact Alongside.sum next (.stop _ next)

include room in
private theorem readGroups_alongside {offset : Nat} (left i low : Nat)
    (address : front.size + (offset + i) < addressSpace) :
    Alongside front.size (Shifted front.size) (liftM (Compact.readGroups bytes offset left i low))
      (liftM (Compact.readGroups (front ++ bytes) (front.size + offset) left i low)) := by
  induction left generalizing i low with
  | zero => rfl
  | succ left ih =>
    have behind : (front ++ bytes)[front.size + (offset + i)]? = bytes[offset + i]? := by
      rw [Array.getElem?_append_right (Nat.le_add_right _ _), Nat.add_sub_cancel_left]
    rw [Compact.readGroups, Compact.readGroups, lift_bind, lift_bind]
    apply Alongside.sum address
    rw [behind, Array.size_append, Nat.add_sub_add_left]
    cases found : bytes[offset + i]? with
    | none => rfl
    | some byte =>
      have inside : offset + i < bytes.size := (Array.getElem?_eq_some_iff.mp found).1
      have next : front.size + (offset + (i + 1)) < addressSpace := by
        rw [Array.size_append] at room
        omega
      dsimp only
      by_cases more : 128 ≤ byte.toNat
      · rw [if_pos more, if_pos more]
        exact ih (i + 1) _ next
      rw [if_neg more, if_neg more]
      by_cases redundant : byte = 0 ∧ 0 < i
      · rw [if_pos redundant, if_pos redundant]
        rfl
      rw [if_neg redundant, if_neg redundant]
      by_cases large : 65536 ≤ low + (byte.toNat % 128) <<< (7 * i)
      · rw [if_pos large, if_pos large]
        rfl
      rw [if_neg large, if_neg large, lift_bind, lift_bind]
      exact Alongside.sum next (.stop _ next)

include room in
private theorem int_follows (format : IntFormat) :
    Follows front.size (fun offset => liftM (format.read bytes offset))
      (fun offset => liftM (format.read (front ++ bytes) offset)) := by
  intro offset address
  cases format with
  | word signed width order =>
    simp only [IntFormat.read, Tracing.lift_bind]
    exact taken_alongside room (fun found => IntFormat.ofWordBytes signed order found.toList) _ _
  | compact =>
    simp only [IntFormat.read, Tracing.lift_bind]
    exact (readGroups_alongside room 3 0 0 address).wrap Int.ofNat

include room in
private theorem float_follows (precision : Precision) (order : ByteOrder) :
    Follows front.size (fun offset => liftM (Floating.read precision order bytes offset))
      (fun offset => liftM (Floating.read precision order (front ++ bytes) offset)) := by
  intro offset address
  simp only [Floating.read, Tracing.lift_bind]
  exact taken_alongside room
    (fun found => Floating.ofPattern precision (ofDigits (order.arrange found.toList))) _ _

include room in
theorem Frame.trace_follows {header : Bytes → Nat → Tracing (Nat × Nat)}
    (hheader : Follows front.size (header bytes) (header (front ++ bytes))) (limit : Limit)
    (payload : Bytes → Nat → Tracing (α × Nat)) :
    Follows front.size (Frame.trace header limit payload bytes)
      (Frame.trace header limit payload (front ++ bytes)) := by
  intro offset address
  apply (hheader offset address).read_bind
  intro len start _
  apply (Alongside.of (check_behind limit len _) _ _).same_bind
  intro _
  apply Alongside.lift_bind (Bytes.window_behind room start len)
  intro inside h
  apply (Alongside.payload (payload inside 0)).same_bind
  intro r
  by_cases exact' : r.2 = len
  · simp only [if_pos exact']
    have next := end_address room h
    exact Alongside.sum next (.stop _ next)
  · simp only [if_neg exact']
    rfl

namespace Header

private theorem count_follows {d : Nat} {read read' : Nat → Tracing (Int × Nat)}
    (follows : Follows d read read') :
    Follows d (fun offset => do
        let (v, stop) ← read offset
        return (← toCount v, stop))
      (fun offset => do
        let (v, stop) ← read' offset
        return (← toCount v, stop)) := by
  intro offset address
  apply (follows offset address).read_bind
  intro v stop address
  apply Alongside.lift_bind (toCount_behind v d).symm
  intro n _
  exact .stop n address

include room in
theorem trace_follows (header : Header) :
    Follows front.size (header.trace bytes) (header.trace (front ++ bytes)) := by
  induction header with
  | plain format => exact int_follows room format
  | framed inner header limit _ hheader =>
    exact Frame.trace_follows room (count_follows hheader) limit inner.trace

include room in
theorem traceCount_follows (header : Header) :
    Follows front.size (header.traceCount bytes) (header.traceCount (front ++ bytes)) :=
  count_follows (header.trace_follows room)

end Header

include room in
theorem Length.traceCount_follows (length : Length) (limit : Limit) :
    Follows front.size (length.traceCount limit bytes)
      (length.traceCount limit (front ++ bytes)) := by
  intro offset address
  cases length with
  | fixed n => exact .stop _ address
  | counted header =>
    apply (header.traceCount_follows room offset address).read_bind
    intro n start address
    apply (Alongside.of (check_behind limit n _) _ _).same_bind
    intro _
    exact .stop _ address
  | remainder => exact .stop _ address

include room in
theorem Slot.trace_follows (slot : Slot) :
    Follows front.size (slot.trace bytes) (slot.trace (front ++ bytes)) := by
  intro offset address
  unfold Slot.trace
  cases slot.length with
  | fixed n =>
    exact taken_alongside room
      (fun found => if slot.strip then Slot.trim slot.pad found.toList else found.toList) _ _
  | counted header =>
    apply (header.traceCount_follows room offset address).read_bind
    intro len start _
    apply (Alongside.of (check_behind slot.limit len _) _ _).same_bind
    intro _
    exact taken_alongside room (fun found => found.toList) _ _
  | remainder =>
    apply Alongside.lift_bind (Bytes.rest_behind room offset)
    intro found h
    have size := (Bytes.window_spans h).2.2
    have next := end_address room h
    rw [← size] at next
    exact Alongside.sum next (.stop _ next)

include room in
theorem Items.trace_follows {item item' : Nat → Tracing (α × Nat)}
    (follows : Follows front.size item item') (length : Length) (limit : Limit)
    {size : Outcome Size} (sized : size.OnlyOverflows) :
    Follows front.size (Items.trace length limit size item bytes)
      (Items.trace length limit size item' (front ++ bytes)) := by
  intro offset address
  apply (length.traceCount_follows room limit offset address).read_bind
  intro count start address
  cases count with
  | some n =>
    apply Alongside.lift_bind (sized.behind _).symm
    intro _ _
    exact follows.times n start address
  | none =>
    have onwards := follows.toEnd bytes.size (bytes.size - start) start address
    apply Alongside.lift_bind (Bytes.rest_behind room start)
    intro rest _
    apply Alongside.lift_bind (sized.behind _).symm
    intro size _
    rw [Array.size_append, Nat.add_sub_add_left]
    cases size with
    | varying => exact onwards
    | fixed n =>
      by_cases misaligned : 0 < n ∧ rest.size % n ≠ 0
      · simp only [if_pos misaligned]
        rfl
      · simp only [if_neg misaligned]
        exact onwards

namespace Schema

/-- The schema reads the same with `front` before the input, whatever stands in it. -/
def ReadsBehind (s : Schema) (front bytes : Bytes) : Prop :=
  Follows front.size (s.trace bytes) (s.trace (front ++ bytes))

private theorem asBoolFailure_behind (l : Located) (d : Nat) :
    asBoolFailure (l.behind d) = Located.behind d ⟨asBoolFailure l.failure, l.site⟩ := by
  have moved (failure : Failure) :
      asBoolFailure (failure.behind d) = (asBoolFailure failure).behind d := by
    cases failure with
    | error e => cases e <;> rfl
    | fault f => rfl
  unfold Located.behind
  by_cases framed : l.site.framed
  · rw [if_pos framed, if_pos framed]
  · rw [if_neg framed, if_neg framed, moved]

private theorem traceBool_follows {header : Header}
    (hheader : Follows front.size (header.traceCount bytes) (header.traceCount (front ++ bytes))) :
    Follows front.size (traceBool header bytes) (traceBool header (front ++ bytes)) := by
  intro offset address
  unfold traceBool
  rcases (hheader offset address).ok_or_error with
    ⟨r, r', first, second, same, address⟩ | ⟨l, m, first, second, same⟩
  · subst same
    rw [first, second]
    match r with
    | (0, stop) => exact .stop _ address
    | (1, stop) => exact .stop _ address
    | (n + 2, stop) => rfl
  · rw [first, second]
    exact (congrArg asBoolFailure same).trans (asBoolFailure_behind l front.size)

private theorem traceFields_follows {fields : List (Field Schema)}
    (each : ∀ f ∈ fields, f.schema.ReadsBehind front bytes) :
    Follows front.size (traceFields fields bytes) (traceFields fields (front ++ bytes)) := by
  induction fields with
  | nil => exact fun offset address => .stop _ address
  | cons f fields ih =>
    intro offset address
    have unframed (site : Site) : (fieldSite f.name offset site).framed = site.framed := by
      cases f.name <;> rfl
    apply ((each f List.mem_cons_self offset address).inside unframed).read_bind
    intro v middle address
    have tail := ih (fun g hg => each g (List.mem_cons_of_mem f hg)) middle address
    exact tail.wrap (v :: ·)

private theorem traceCase_follows {variants : List (Variant Schema)}
    (each : ∀ v ∈ variants, v.schema.ReadsBehind front bytes) (tag : Nat) :
    Follows front.size (traceCase tag variants bytes)
      (traceCase tag variants (front ++ bytes)) := by
  induction variants with
  | nil => exact fun _ _ => rfl
  | cons v variants ih =>
    intro offset address
    rw [traceCase, traceCase]
    by_cases same : v.tag = tag
    · rw [if_pos same, if_pos same]
      exact (each v List.mem_cons_self offset address).wrap (Value.case v.label)
    · rw [if_neg same, if_neg same]
      exact ih (fun w hw => each w (List.mem_cons_of_mem v hw)) offset address

private theorem tracePair_follows {key value : Schema} (hkey : key.ReadsBehind front bytes)
    (hvalue : value.ReadsBehind front bytes) :
    Follows front.size (tracePair (key.trace bytes) (value.trace bytes))
      (tracePair (key.trace (front ++ bytes)) (value.trace (front ++ bytes))) := by
  intro offset address
  apply (hkey offset address).read_bind
  intro k middle address
  exact (hvalue middle address).wrap fun v => (k, v)

include room in
theorem readsBehind (s : Schema) : s.ReadsBehind front bytes := by
  induction s with
  | int format =>
    intro offset address
    rw [trace, trace]
    exact (int_follows room format offset address).wrap Value.int
  | float precision order =>
    intro offset address
    rw [trace, trace]
    exact (float_follows room precision order offset address).wrap Value.float
  | bool header =>
    intro offset address
    rw [trace, trace]
    exact traceBool_follows (header.traceCount_follows room) offset address
  | slot content shape =>
    intro offset address
    rw [trace, trace]
    apply (shape.trace_follows room offset address).read_bind
    intro found stop address
    apply Alongside.lift_bind (ofBytes_behind content found _).symm
    intro v _
    exact .stop v address
  | constant expected =>
    intro offset address
    rw [trace, trace]
    apply Alongside.lift_bind (Bytes.window_behind room offset expected.length)
    intro found h
    by_cases same : found.toList = expected
    · rw [if_pos same, if_pos same]
      have next := end_address room h
      exact Alongside.sum next (.stop _ next)
    · rw [if_neg same, if_neg same]
      rfl
  | record fields each =>
    intro offset address
    rw [trace, trace]
    exact (traceFields_follows each offset address).wrap Value.list
  | array item length limit hitem =>
    intro offset address
    rw [trace, trace]
    have items := Items.trace_follows room hitem length limit item.size_overflows
    exact (items offset address).wrap Value.list
  | map kind key value length limit hkey hvalue =>
    intro offset address
    rw [trace, trace]
    have sized := pairSize_overflows key value
    have items := Items.trace_follows room (tracePair_follows hkey hvalue) length limit sized
    exact (items offset address).wrap fun pairs => Value.map (Association.ofPairs kind pairs)
  | option header inner hinner =>
    intro offset address
    rw [trace, trace]
    apply (header.traceCount_follows room offset address).read_bind
    intro tag middle address
    cases tag with
    | zero => exact .stop _ address
    | succ tag =>
      cases tag with
      | zero => exact (hinner middle address).wrap Value.present
      | succ tag => rfl
  | union header variants each =>
    intro offset address
    rw [trace, trace]
    apply (header.traceCount_follows room offset address).read_bind
    intro tag middle address
    exact traceCase_follows each tag middle address
  | framed inner header limit hinner =>
    intro offset address
    rw [trace, trace]
    exact Frame.trace_follows room (header.traceCount_follows room) limit inner.trace offset address
  | converted conversion inner hinner =>
    intro offset address
    rw [trace, trace]
    exact (hinner offset address).wrap conversion.load

include room in
theorem read_shifted_iff {s : Schema} {offset stop : Nat} {v : Value}
    (address : front.size + offset < addressSpace) :
    (s.read bytes offset).outcome = .ok (v, stop) ↔
      (s.read (front ++ bytes) (front.size + offset)).outcome = .ok (v, front.size + stop) := by
  rw [← trace_outcome, ← trace_outcome]
  rcases (s.readsBehind room offset address).ok_or_error with
    ⟨r, r', first, second, same, -⟩ | ⟨l, m, first, second, -⟩
  · subst same
    rw [first, second]
    constructor
    · intro h
      cases h
      rfl
    · intro h
      obtain ⟨hv, hstop⟩ := Prod.mk.inj (Except.ok.inj h)
      rw [outcome_ok, ← hv, ← Nat.add_left_cancel hstop]
  · rw [first, second]
    constructor
    all_goals
      intro h
      cases h

/-- Bytes in front of the offset move where a value ends and where bytes are missing outside of
every frame.  They change nothing else, neither what is read nor whether and why it fails. -/
theorem read_behind (s : Schema) (front bytes : Bytes) (room : (front ++ bytes).size < addressSpace)
    (offset : Nat) (address : front.size + offset < addressSpace) :
    (∀ v stop, (s.read bytes offset).outcome = .ok (v, stop) ↔
      (s.read (front ++ bytes) (front.size + offset)).outcome = .ok (v, front.size + stop)) ∧
    ((∃ e, (s.read bytes offset).outcome = .error e) ↔
      ∃ e, (s.read (front ++ bytes) (front.size + offset)).outcome = .error e) ∧
    ∀ e, (s.read bytes offset).outcome = .error e →
      ∃ site, s.trace bytes offset = .error ⟨e, site⟩ ∧
        (s.read (front ++ bytes) (front.size + offset)).outcome =
          .error (if site.framed then e else e.behind front.size) := by
  refine ⟨fun v stop => read_shifted_iff room address, ?_⟩
  rw [← trace_outcome, ← trace_outcome]
  rcases (s.readsBehind room offset address).ok_or_error with
    ⟨r, r', first, second, -⟩ | ⟨l, m, first, second, same⟩
  · rw [first, second]
    refine ⟨?_, fun e h => ?_⟩
    · constructor
      all_goals
        rintro ⟨e, h⟩
        cases h
    · cases h
  · rw [first, second]
    refine ⟨⟨fun _ => ⟨_, rfl⟩, fun _ => ⟨_, rfl⟩⟩, fun e h => ?_⟩
    cases h
    exact ⟨l.site, rfl, congrArg Except.error same⟩

set_option maxRecDepth 4000 in
/-- In the second pair of runs the frame is cut short, in the third its last item. -/
theorem read_behind_packet :
    (packet.read
      #[9, 8, 1, 20, 7, 172, 2, 1, 0, 2, 10, 255, 0, 254, 255, 0, 0, 0, 5, 0, 0, 1, 128, 1] 2).outcome =
        .ok (packetValue, 24) ∧
    (packet.read #[1, 20, 7] 0).outcome = .error (.error (.endOfInput 20 2 1)) ∧
    (packet.read #[9, 8, 1, 20, 7] 2).outcome = .error (.error (.endOfInput 20 4 1)) ∧
    (packet.read
      #[1, 20, 7, 172, 2, 1, 0, 2, 10, 255, 0, 254, 255, 0, 0, 0, 5, 0, 0, 0, 0, 1] 0).outcome =
        .error (.error (.endOfInput 1 20 0)) ∧
    (packet.read
      #[9, 8, 1, 20, 7, 172, 2, 1, 0, 2, 10, 255, 0, 254, 255, 0, 0, 0, 5, 0, 0, 0, 0, 1] 2).outcome =
        .error (.error (.endOfInput 1 20 0)) := by
  have short : (packet.read #[1, 20, 7] 0).outcome = .error (.error (.endOfInput 20 2 1)) := rfl
  have cut : (packet.read
      #[1, 20, 7, 172, 2, 1, 0, 2, 10, 255, 0, 254, 255, 0, 0, 0, 5, 0, 0, 0, 0, 1] 0).outcome =
        .error (.error (.endOfInput 1 20 0)) := rfl
  have at_frame : (packet.trace #[1, 20, 7] 0).located =
      some ⟨.error (.endOfInput 20 2 1), .here .other⟩ := by decide +kernel
  have at_item : (packet.trace
      #[1, 20, 7, 172, 2, 1, 0, 2, 10, 255, 0, 254, 255, 0, 0, 0, 5, 0, 0, 0, 0, 1] 0).located =
        some ⟨.error (.endOfInput 1 20 0), .payload (.field "rest" 16 (.here .other))⟩ := by
    decide +kernel
  obtain ⟨whole, -, -⟩ := read_behind packet #[9, 8]
    #[1, 20, 7, 172, 2, 1, 0, 2, 10, 255, 0, 254, 255, 0, 0, 0, 5, 0, 0, 1, 128, 1] (by decide) 0
    (by decide)
  obtain ⟨-, -, outside⟩ := read_behind packet #[9, 8] #[1, 20, 7] (by decide) 0 (by decide)
  obtain ⟨-, -, within⟩ := read_behind packet #[9, 8]
    #[1, 20, 7, 172, 2, 1, 0, 2, 10, 255, 0, 254, 255, 0, 0, 0, 5, 0, 0, 0, 0, 1] (by decide) 0
    (by decide)
  refine ⟨(whole packetValue 22).mp rfl, short, ?_, cut, ?_⟩
  · obtain ⟨site, place, moved⟩ := outside _ short
    rw [place] at at_frame
    cases at_frame
    exact moved
  · obtain ⟨site, place, same⟩ := within _ cut
    rw [place] at at_item
    cases at_item
    exact same

end Schema
end ByteSchema
