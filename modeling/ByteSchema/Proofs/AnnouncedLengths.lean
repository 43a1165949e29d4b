import ByteSchema.Proofs.Failing
import ByteSchema.Proofs.SchemaImages

/-!
# Announced lengths are never found wrong

Two places compare the bytes that were written with the length announced for them: the frames and
the encoder.  No other step can raise that fault, which is shown by going through the steps; at the
two places themselves the image of the payload decides, since it is what both numbers are taken of.
-/
namespace ByteSchema

open Bytes

variable {α β : Type}

/-- The outcome is not the fault of a wrong announcement. -/
def Outcome.Truthful (x : Outcome α) : Prop := x.FailsOnly (· ≠ .fault .writtenLength)

/-- The step does not fail with a wrong announcement, whatever the buffer. -/
def Writing.Truthful (x : Writing α) : Prop := x.FailsOnly (· ≠ .fault .writtenLength)

open Outcome (Truthful)

/-- A value of the wrong kind is another fault. -/
theorem Value.shaped_truthful (holds : Value → Option α) (v : Value) :
    Truthful (v.shaped holds) := by
  unfold shaped
  cases holds v with
  | some a => exact .ok a
  | none => exact .abort nofun

namespace IntFormat

theorem checkRange_truthful (format : IntFormat) (v : Int) : Truthful (format.checkRange v) :=
  .ite (.ok _) (.fail nofun)

theorem encodeSize_truthful (format : IntFormat) (v : Int) : Truthful (format.encodeSize v) := by
  cases format with
  | word signed width order => exact .ok _
  | compact => exact .bind (checkRange_truthful _ v) fun _ _ => .ok _

theorem write_truthful (format : IntFormat) (v : Int) (offset : Nat) :
    (format.write v offset).Truthful := by
  refine .lift_bind (checkRange_truthful format v) fun _ _ => ?_
  cases format with
  | word signed width order => exact .put nofun
  | compact => exact .put nofun

end IntFormat

namespace Frame

theorem encodeSize_truthful {header : Nat → Outcome Nat} {payload : Outcome Nat}
    (hheader : ∀ n, Truthful (header n)) (hpayload : Truthful payload) :
    Truthful (Frame.encodeSize header payload) :=
  .bind hpayload fun len _ => .bind (hheader len) fun _ _ => .checkedAdd nofun

/-- The payload was announced by the length of its image, and its image is what was written. -/
theorem write_truthful {header : Nat → Nat → Writing Nat} {size : Outcome Nat}
    {payload : Nat → Writing Nat} {payloadImage : Outcome (List UInt8)}
    (hheader : ∀ n offset, (header n offset).Truthful) (hsize : size.Truthful)
    (hpayload : ∀ offset, (payload offset).Truthful) (renders : Renders payload payloadImage)
    (announced : ∀ bs, payloadImage = .ok bs → bs.length < addressSpace → size = .ok bs.length)
    (offset : Nat) : (Frame.write header size payload offset).Truthful := by
  refine .lift_bind hsize fun len hlen => .bind (hheader len offset) fun start _ _ _ => ?_
  refine .bind (hpayload start) fun stop buffer after hwrite => ?_
  refine .lift_bind (.checkedSub nofun) fun written hwritten => ?_
  obtain ⟨bs, himage, rfl, spliced⟩ := renders.sound hwrite
  have same := (announced bs himage spliced.length_lt).symm.trans hlen
  cases same
  obtain ⟨-, rfl⟩ := checkedSub_eq_ok_iff.mp hwritten
  rw [if_pos (by omega)]
  exact .pure _

end Frame

namespace Header

theorem encodeSize_truthful (header : Header) (n : Nat) : Truthful (header.encodeSize n) := by
  induction header generalizing n with
  | plain format => exact format.encodeSize_truthful n
  | framed inner header limit hinner hheader =>
    exact Frame.encodeSize_truthful hheader (hinner n)

theorem write_truthful (header : Header) (n offset : Nat) : (header.write n offset).Truthful := by
  induction header generalizing n offset with
  | plain format => exact format.write_truthful n offset
  | framed inner header limit hinner hheader =>
    exact Frame.write_truthful hheader (inner.encodeSize_truthful n) (hinner n)
      (inner.write_renders n) (fun _ h small => encodeSize_of_image h small) offset

end Header

namespace Length

private theorem matchCount_truthful (expected found : Nat) : Truthful (matchCount expected found) :=
  .ite (.ok _) (.fail nofun)

theorem countSize_truthful (length : Length) (count : Nat) : Truthful (length.countSize count) := by
  cases length with
  | fixed n => exact .bind (matchCount_truthful n count) fun _ _ => .ok _
  | counted header => exact header.encodeSize_truthful count
  | remainder => exact .ok _

theorem writeCount_truthful (length : Length) (count offset : Nat) :
    (length.writeCount count offset).Truthful := by
  cases length with
  | fixed n => exact .lift_bind (matchCount_truthful n count) fun _ _ => .pure _
  | counted header => exact header.write_truthful count offset
  | remainder => exact .pure _

end Length

namespace Slot

theorem encodeSize_truthful (slot : Slot) {payload : Outcome (List UInt8)}
    (h : Truthful payload) : Truthful (slot.encodeSize payload) := by
  unfold encodeSize
  cases slot.length with
  | fixed n => exact .ok _
  | counted header =>
    exact .bind h fun bs _ => .bind (header.encodeSize_truthful _) fun _ _ => .checkedAdd nofun
  | remainder => exact .bind h fun _ _ => .ok _

theorem write_truthful (slot : Slot) (payload : List UInt8) (offset : Nat) :
    (slot.write payload offset).Truthful := by
  unfold write
  cases slot.length with
  | fixed n =>
    by_cases long : n < payload.length
    · simp only [if_pos long]
      exact .of_outcome (.fail nofun)
    · simp only [if_neg long, Writing.fill_eq_put]
      exact .bind (.put nofun) fun _ _ _ _ => .put nofun
  | counted header => exact .bind (header.write_truthful _ _) fun _ _ _ _ => .put nofun
  | remainder => exact .put nofun

end Slot

namespace Items

theorem encodeSize_truthful (length : Length) {item : Outcome Size} {add : Nat → α → Outcome Nat}
    {items : List α} (hitem : Truthful item) (hadd : ∀ a ∈ items, ∀ sum, Truthful (add sum a)) :
    Truthful (encodeSize length item add items) := by
  refine .bind (length.countSize_truthful _) fun count _ => .bind hitem fun size _ => ?_
  cases size with
  | fixed n => exact .bind (.checkedMul nofun) fun _ _ => .checkedAdd nofun
  | varying => exact .foldlM hadd count

theorem write_truthful (length : Length) {step : Nat → α → Writing Nat} {items : List α}
    (h : ∀ a ∈ items, ∀ offset, (step offset a).Truthful) (offset : Nat) :
    (Items.write length step items offset).Truthful :=
  .bind (length.writeCount_truthful _ offset) fun start _ _ _ => .foldlM h start

end Items

namespace Content

private theorem refuse_truthful (e : Encoding) (x : Except TextDefect α) :
    Truthful (e.refuse x) :=
  (e.refuse_failsOnly x).mono fun
    | _, ⟨_, rfl⟩ => nofun

theorem toBytes_truthful (content : Content) (v : Value) : Truthful (content.toBytes v) := by
  cases content with
  | raw =>
    change Truthful v.asBytes
    exact v.shaped_truthful _
  | text e =>
    refine .bind (v.shaped_truthful _) fun text _ => ?_
    cases e with
    | utf8 => exact .ok _
    | base16 => exact refuse_truthful _ _
    | base58 => exact refuse_truthful _ _
    | base64 => exact refuse_truthful _ _

end Content

namespace Schema

variable {s : Schema}

private theorem encodeSizeAfter_truthful {fields : List (Field Schema)}
    (each : ∀ f ∈ fields, ∀ v, Truthful (f.schema.encodeSize v)) (sum : Nat) (vs : List Value) :
    Truthful (encodeSizeAfter sum fields vs) := by
  induction fields generalizing sum vs with
  | nil =>
    cases vs with
    | nil => exact .ok _
    | cons v vs => exact .abort nofun
  | cons f fields ih =>
    cases vs with
    | nil => exact .abort nofun
    | cons v vs =>
      exact .bind (each f List.mem_cons_self v) fun _ _ => .bind (.checkedAdd nofun) fun next _ =>
        ih (fun g hg => each g (List.mem_cons_of_mem f hg)) next vs

private theorem encodeSizeCase_truthful {header : Header} {label : String} {payload : Value}
    {variants : List (Variant Schema)}
    (each : ∀ v ∈ variants, Truthful (v.schema.encodeSize payload)) :
    Truthful (encodeSizeCase header label payload variants) := by
  induction variants with
  | nil => exact .fail nofun
  | cons v variants ih =>
    refine .ite ?_ (ih fun w hw => each w (List.mem_cons_of_mem v hw))
    exact .bind (header.encodeSize_truthful v.tag) fun _ _ =>
      .bind (each v List.mem_cons_self) fun _ _ => .checkedAdd nofun

theorem encodeSize_truthful (sized : s.Everywhere Sized) (v : Value) :
    Truthful (s.encodeSize v) := by
  induction s generalizing v with
  | int format => exact .bind (v.shaped_truthful _) fun x _ => format.encodeSize_truthful x
  | float precision order => exact .bind (v.shaped_truthful _) fun _ _ => .ok _
  | bool header => exact .bind (v.shaped_truthful _) fun b _ => header.encodeSize_truthful _
  | slot content shape => exact shape.encodeSize_truthful (content.toBytes_truthful v)
  | constant bytes => exact .bind (v.shaped_truthful _) fun _ _ => .ok _
  | record fields each =>
    exact .bind (v.shaped_truthful _) fun vs _ =>
      encodeSizeAfter_truthful (fun f hf => each f hf (sized.field hf)) 0 vs
  | array item length limit hitem =>
    have inside : item.Everywhere Sized := sized.part List.mem_cons_self
    obtain ⟨size, hsize⟩ := inside.here
    refine .bind (v.shaped_truthful _) fun vs _ => Items.encodeSize_truthful length ?_ ?_
    · exact hsize ▸ .ok size
    · exact fun w _ sum => .bind (hitem inside w) fun _ _ => .checkedAdd nofun
  | map kind key value length limit hkey hvalue =>
    obtain ⟨keys, values⟩ := sized.pair
    obtain ⟨_, hsized⟩ := sized.here
    obtain ⟨size, hsize, _⟩ := Outcome.bind_eq_ok.mp hsized
    refine .bind (v.shaped_truthful _) fun es _ => Items.encodeSize_truthful length ?_ ?_
    · exact hsize ▸ .ok size
    · exact fun e _ sum => .bind (hkey keys e.1) fun _ _ => .bind (.checkedAdd nofun) fun _ _ =>
        .bind (hvalue values e.2) fun _ _ => .checkedAdd nofun
  | option header inner hinner =>
    refine .bind (v.shaped_truthful _) fun o _ => ?_
    cases o with
    | none => exact header.encodeSize_truthful 0
    | some w =>
      exact .bind (header.encodeSize_truthful 1) fun _ _ =>
        .bind (hinner (sized.part List.mem_cons_self) w) fun _ _ => .checkedAdd nofun
  | union header variants each =>
    exact .bind (v.shaped_truthful _) fun c _ =>
      encodeSizeCase_truthful fun w hw => each w hw (sized.variant hw) c.2
  | framed inner header limit hinner =>
    exact Frame.encodeSize_truthful header.encodeSize_truthful
      (hinner (sized.part List.mem_cons_self) v)
  | converted conversion inner hinner =>
    have inside : inner.Everywhere Sized := sized.part List.mem_cons_self
    obtain ⟨size, hsize⟩ := inside.here
    refine .bind (hsize ▸ .ok size) fun size _ => ?_
    cases size with
    | fixed n => exact .ok _
    | varying => exact hinner inside (conversion.store v)

private theorem writeFields_truthful {fields : List (Field Schema)}
    (each : ∀ f ∈ fields, ∀ v offset, (f.schema.write v offset).Truthful) (vs : List Value)
    (offset : Nat) : (writeFields fields vs offset).Truthful := by
  induction fields generalizing vs offset with
  | nil =>
    cases vs with
    | nil => exact .pure _
    | cons v vs => exact .of_outcome (.abort nofun)
  | cons f fields ih =>
    cases vs with
    | nil => exact .of_outcome (.abort nofun)
    | cons v vs =>
      exact .bind (each f List.mem_cons_self v offset) fun next _ _ _ =>
        ih (fun g hg => each g (List.mem_cons_of_mem f hg)) vs next

private theorem writeCase_truthful {header : Header} {label : String} {payload : Value}
    {variants : List (Variant Schema)}
    (each : ∀ v ∈ variants, ∀ offset, (v.schema.write payload offset).Truthful) (offset : Nat) :
    (writeCase header label payload variants offset).Truthful := by
  induction variants with
  | nil => exact .of_outcome (.fail nofun)
  | cons v variants ih =>
    by_cases same : v.label = label
    · simp only [writeCase, if_pos same]
      exact .bind (header.write_truthful v.tag offset) fun next _ _ _ =>
        each v List.mem_cons_self next
    · simp only [writeCase, if_neg same]
      exact ih fun w hw => each w (List.mem_cons_of_mem v hw)

theorem write_truthful (sized : s.Everywhere Sized) (v : Value) (offset : Nat) :
    (s.write v offset).Truthful := by
  induction s generalizing v offset with
  | int format => exact .lift_bind (v.shaped_truthful _) fun x _ => format.write_truthful x offset
  | float precision order =>
    exact .lift_bind (v.shaped_truthful _) fun x _ =>
      .lift_bind (.ite (.fail nofun) (.ok _)) fun _ _ => .put nofun
  | bool header => exact .lift_bind (v.shaped_truthful _) fun b _ => header.write_truthful _ offset
  | slot content shape =>
    exact .lift_bind (content.toBytes_truthful v) fun bs _ => shape.write_truthful bs offset
  | constant bytes => exact .lift_bind (v.shaped_truthful _) fun _ _ => .put nofun
  | record fields each =>
    exact .lift_bind (v.shaped_truthful _) fun vs _ =>
      writeFields_truthful (fun f hf => each f hf (sized.field hf)) vs offset
  | array item length limit hitem =>
    exact .lift_bind (v.shaped_truthful _) fun vs _ => Items.write_truthful length
      (fun w _ => hitem (sized.part List.mem_cons_self) w) offset
  | map kind key value length limit hkey hvalue =>
    obtain ⟨keys, values⟩ := sized.pair
    refine .lift_bind (v.shaped_truthful _) fun es _ => Items.write_truthful length ?_ offset
    exact fun e _ next => .bind (hkey keys e.1 next) fun _ _ _ _ => hvalue values e.2 _
  | option header inner hinner =>
    refine .lift_bind (v.shaped_truthful _) fun o _ => ?_
    cases o with
    | none => exact header.write_truthful 0 offset
    | some w =>
      exact .bind (header.write_truthful 1 offset) fun next _ _ _ =>
        hinner (sized.part List.mem_cons_self) w next
  | union header variants each =>
    exact .lift_bind (v.shaped_truthful _) fun c _ =>
      writeCase_truthful (fun w hw => each w hw (sized.variant hw) c.2) offset
  | framed inner header limit hinner =>
    have inside : inner.Everywhere Sized := sized.part List.mem_cons_self
    exact Frame.write_truthful header.write_truthful (encodeSize_truthful inside v)
      (hinner inside v) (write_renders inside v)
      (fun _ h small => encodeSize_of_image inside h small) offset
  | converted conversion inner hinner =>
    exact hinner (sized.part List.mem_cons_self) (conversion.store v) offset

/-- The check behind the encoder passes too. -/
theorem encode_truthful (sized : s.Everywhere Sized) (v : Value) : Truthful (s.encode v) := by
  refine .bind (encodeSize_truthful sized v) fun len hlen => ?_
  cases hwrite : (s.write v 0).run (Array.replicate len 0) with
  | error e buffer =>
    rintro _ ⟨⟩
    exact write_truthful sized v 0 _ e _ hwrite
  | ok stop buffer =>
    obtain ⟨bs, himage, rfl, spliced⟩ := (write_renders sized v).sound hwrite
    have same := (encodeSize_of_image sized himage spliced.length_lt).symm.trans hlen
    cases same
    simp only [Nat.zero_add, if_true]
    exact .ok buffer

end Schema
end ByteSchema
