import ByteSchema.Proofs.Failing
import ByteSchema.Proofs.FixedSizes
import ByteSchema.Proofs.Gathering

/-!
# Which errors a reader raises

An unknown tag, a payload of another length than announced and a rest that is no whole number of
items are found by the schemas that put others together.  No reader of a single value raises one of
them.  The last one comes from items that go on to the end of the input, so that it cannot come out
of a schema of fixed size.
-/
namespace ByteSchema

open Bytes

variable {α β : Type}

namespace Error

/-- Whether a reader of a single value may raise the error. -/
def isSingle : Error → Bool
  | unknownTag _ | lengthMismatch .. | misaligned .. => false
  | _ => true

def isMisaligned : Error → Bool
  | misaligned .. => true
  | _ => false

theorem isMisaligned_of_isSingle {e : Error} (h : e.isSingle = true) :
    e.isMisaligned = false := by
  cases e <;> first | rfl | cases h

end Error

def Outcome.Single (x : Outcome α) : Prop := x.Raises (·.isSingle = true)

/-- The outcome does not fail with a misaligned rest. -/
def Outcome.Aligned (x : Outcome α) : Prop := x.Raises (·.isMisaligned = false)

def Reading.Aligned (x : Reading α) : Prop := x.FailsOnly (Failure.Raised (·.isMisaligned = false))

theorem Outcome.Single.aligned {x : Outcome α} (h : x.Single) : x.Aligned :=
  Raises.mono h fun _ => Error.isMisaligned_of_isSingle

open Outcome (Single)

theorem checkedAdd_single (a b : Nat) : Single (checkedAdd a b) := .ite (.ok _) (.abort trivial)

theorem Bytes.window_single (bytes : Bytes) (offset len : Nat) :
    Single (bytes.window offset len) :=
  .ite (.fail rfl) (.bind (checkedAdd_single _ _) fun _ _ => .ite (.ok _) (.abort trivial))

theorem Limit.check_single (limit : Limit) (n : Nat) : Single (limit.check n) :=
  .ite (.ok _) (.fail rfl)

theorem Header.toCount_single (v : Int) : Single (toCount v) := .ite (.ok _) (.fail rfl)

private theorem readGroups_single (bytes : Bytes) (offset left i low : Nat) :
    Single (Compact.readGroups bytes offset left i low) := by
  induction left generalizing i low with
  | zero => exact .fail rfl
  | succ left ih =>
    rw [Compact.readGroups]
    refine .bind (checkedAdd_single _ _) fun position _ => ?_
    cases bytes[position]? with
    | none => exact .fail rfl
    | some byte =>
      refine .ite (ih _ _) (.ite (.fail rfl) (.ite (.fail rfl) ?_))
      exact .bind (checkedAdd_single _ _) fun _ _ => .ok _

theorem IntFormat.read_single (format : IntFormat) (bytes : Bytes) (offset : Nat) :
    Single (format.read bytes offset) := by
  cases format with
  | word signed width order =>
    exact .bind (bytes.window_single _ _) fun _ _ => .bind (checkedAdd_single _ _) fun _ _ => .ok _
  | compact => exact .bind (readGroups_single _ _ _ _ _) fun _ _ => .ok _

theorem Floating.read_single (precision : Precision) (order : ByteOrder) (bytes : Bytes)
    (offset : Nat) : Single (Floating.read precision order bytes offset) :=
  .bind (bytes.window_single _ _) fun _ _ => .bind (checkedAdd_single _ _) fun _ _ => .ok _

theorem Content.ofBytes_single (content : Content) (bs : List UInt8) :
    Single (content.ofBytes bs) :=
  (content.ofBytes_failsOnly bs).mono fun
    | _, ⟨_, _, rfl⟩ => rfl

/-! Nothing but items up to the end of the input is found to be misaligned. -/

theorem Frame.read_aligned {reader : Bytes → Nat → Reading (Nat × Nat)} {limit : Limit}
    {payload : Bytes → Nat → Reading (α × Nat)} {bytes : Bytes} {offset : Nat}
    (hreader : (reader bytes offset).Aligned) (hpayload : ∀ inside, (payload inside 0).Aligned) :
    (Frame.read reader limit payload bytes offset).Aligned := by
  refine .bind hreader fun _ count _ => .lift_bind (limit.check_single _).aligned fun _ _ => ?_
  refine .lift_bind (bytes.window_single _ _).aligned fun inside _ => ?_
  refine .bind (hpayload inside) fun _ _ _ => ?_
  refine .ite ?_ (.bind (.lift (.ok _)) fun _ _ _ => .fail rfl)
  exact .lift_bind (checkedAdd_single _ _).aligned fun _ _ => .pure _

namespace Header

theorem read_aligned (header : Header) (bytes : Bytes) (offset : Nat) :
    (header.read bytes offset).Aligned := by
  induction header generalizing bytes offset with
  | plain format => exact .lift (format.read_single bytes offset).aligned
  | framed inner header limit hinner hheader =>
    refine Frame.read_aligned ?_ fun inside => hinner inside 0
    exact .bind (hheader bytes offset) fun _ _ _ =>
      .lift_bind (toCount_single _).aligned fun _ _ => .pure _

theorem readCount_aligned (header : Header) (bytes : Bytes) (offset : Nat) :
    (header.readCount bytes offset).Aligned :=
  .bind (header.read_aligned bytes offset) fun _ _ _ =>
    .lift_bind (toCount_single _).aligned fun _ _ => .pure _

end Header

theorem Slot.read_aligned (slot : Slot) (bytes : Bytes) (offset : Nat) :
    (slot.read bytes offset).Aligned := by
  unfold Slot.read
  cases slot.length with
  | fixed n =>
    exact .lift_bind (bytes.window_single _ _).aligned fun _ _ =>
      .lift_bind (checkedAdd_single _ _).aligned fun _ _ => .pure _
  | counted header =>
    refine .bind (header.readCount_aligned bytes offset) fun _ count _ => ?_
    exact .lift_bind (slot.limit.check_single _).aligned fun _ _ =>
      .lift_bind (bytes.window_single _ _).aligned fun _ _ =>
        .lift_bind (checkedAdd_single _ _).aligned fun _ _ => .pure _
  | remainder =>
    exact .lift_bind (bytes.window_single _ _).aligned fun _ _ =>
      .lift_bind (checkedAdd_single _ _).aligned fun _ _ => .pure _

/-- A fixed number of items does not go on to the end of the input. -/
theorem Items.read_aligned {n : Nat} {limit : Limit} {size : Outcome Size}
    {item : Nat → Reading (α × Nat)} {bytes : Bytes} {offset : Nat} (known : ∃ s, size = .ok s)
    (each : ∀ a, (item a).Aligned) :
    (Items.read (.fixed n) limit size item bytes offset).Aligned := by
  obtain ⟨s, rfl⟩ := known
  rw [read_fixed]
  exact .lift_bind (.ok s) fun _ _ =>
    .times (fun a (_ : True) => each a) (fun _ _ => trivial) trivial n

namespace Schema

private theorem readBool_aligned (header : Header) (bytes : Bytes) (offset : Nat) :
    (readBool header bytes offset).Aligned := by
  have same := header.readCount_aligned bytes offset
  unfold readBool
  cases hcount : header.readCount bytes offset with
  | mk events outcome =>
    rw [hcount] at same
    cases outcome with
    | ok r =>
      match r with
      | (0, stop) => exact .pure _
      | (1, stop) => exact .pure _
      | (n + 2, stop) => exact .fail rfl
    | error e =>
      cases e with
      | fault f => exact .lift (.abort trivial)
      | error e =>
        cases e with
        | misaligned => cases same _ rfl
        | _ => exact .fail rfl

private theorem readFields_aligned {fields : List (Field Schema)}
    (each : ∀ f ∈ fields, ∀ bytes offset, (f.schema.read bytes offset).Aligned) (bytes : Bytes)
    (offset : Nat) : (readFields fields bytes offset).Aligned := by
  induction fields generalizing offset with
  | nil => exact .pure _
  | cons f fields ih =>
    have tail := ih fun g hg => each g (List.mem_cons_of_mem f hg)
    refine .bind ?_ fun _ r _ => .bind (tail r.2) fun _ _ _ => .pure _
    rw [Reading.FailsOnly, reportField_outcome]
    exact each f List.mem_cons_self bytes offset

private theorem readCase_aligned {tag : Nat} {variants : List (Variant Schema)}
    (each : ∀ v ∈ variants, ∀ bytes offset, (v.schema.read bytes offset).Aligned) (bytes : Bytes)
    (offset : Nat) : (readCase tag variants bytes offset).Aligned := by
  induction variants with
  | nil => exact .bind (.lift (.ok _)) fun _ _ _ => .fail rfl
  | cons v variants ih =>
    rw [readCase]
    refine .ite ?_ (ih fun w hw => each w (List.mem_cons_of_mem v hw))
    exact .bind (each v List.mem_cons_self bytes offset) fun _ _ _ => .pure _

/-- A schema of fixed size has no items inside that go on to the end of the input. -/
theorem read_aligned {s : Schema} {n : Nat} (size : s.size = .ok (.fixed n)) (bytes : Bytes)
    (offset : Nat) : (s.read bytes offset).Aligned := by
  induction s generalizing n bytes offset with
  | int format => exact .lift_bind (format.read_single bytes offset).aligned fun _ _ => .pure _
  | float precision order =>
    exact .lift_bind (Floating.read_single precision order bytes offset).aligned fun _ _ => .pure _
  | bool header => exact readBool_aligned header bytes offset
  | slot content shape =>
    exact .bind (shape.read_aligned bytes offset) fun _ _ _ =>
      .lift_bind (content.ofBytes_single _).aligned fun _ _ => .pure _
  | constant expected =>
    refine .lift_bind (bytes.window_single _ _).aligned fun _ _ => .ite ?_ (.fail rfl)
    exact .lift_bind (checkedAdd_single _ _).aligned fun _ _ => .pure _
  | record fields each =>
    refine .bind (readFields_aligned (fun f hf => ?_) bytes offset) fun _ _ _ => .pure _
    obtain ⟨k, hk⟩ := part_size_eq_fixed ⟨n, size⟩ (List.mem_map_of_mem hf)
    exact each f hf hk
  | array item length limit hitem =>
    obtain ⟨itemSize, hsize, fixed⟩ := array_size_eq_fixed size
    obtain ⟨count, k, rfl, rfl, -⟩ := Items.size_eq_fixed_iff.mp fixed
    exact .bind (Items.read_aligned ⟨_, hsize⟩ (hitem hsize bytes)) fun _ _ _ => .pure _
  | map kind key value length limit hkey hvalue =>
    obtain ⟨pairSize, hsize, fixed⟩ := map_size_eq_fixed size
    obtain ⟨count, k, rfl, rfl, -⟩ := Items.size_eq_fixed_iff.mp fixed
    obtain ⟨x, y, hx, hy, -⟩ := Items.pairSize_eq_fixed_iff.mp hsize
    refine .bind (Items.read_aligned ⟨_, hsize⟩ fun a => ?_) fun _ _ _ =>
      .bind ?_ fun _ _ _ => .pure _
    · exact .bind (hkey hx bytes a) fun _ _ _ => .bind (hvalue hy bytes _) fun _ _ _ => .pure _
    · rw [Reading.FailsOnly, Association.gather_outcome]
      exact .ok _
  | option header inner => cases size
  | union header variants each =>
    obtain ⟨tag, k, -, hvariants, -⟩ := union_size_eq_fixed size
    refine .bind (header.readCount_aligned bytes offset) fun _ r _ => ?_
    exact readCase_aligned (fun v hv => each v hv (hvariants v hv)) bytes r.2
  | framed inner header limit hinner =>
    obtain ⟨x, y, -, hy, -⟩ := framed_size_eq_fixed size
    exact Frame.read_aligned (header.readCount_aligned bytes offset) fun inside =>
      hinner hy inside 0
  | converted conversion inner hinner =>
    exact .bind (hinner size bytes offset) fun _ _ _ => .pure _

end Schema
end ByteSchema
