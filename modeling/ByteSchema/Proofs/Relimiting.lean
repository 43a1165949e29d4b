import ByteSchema.Schema.Write
import ByteSchema.Proofs.FailureReports
import Mathlib.Data.List.Forall2

/-!
# Schemas with other limits

Two schemas may be the same tree with other limits in it.  Writers do not look at limits.  Readers
look at those of frames and of lengths held in a header: a narrower limit there refuses some
lengths, and changes nothing else.
-/
namespace ByteSchema

/-- Every length that passes the first limit passes the second. -/
def Limit.Narrows (l m : Limit) : Prop :=
  ∀ n < addressSpace, l.contains n = true → m.contains n = true

section Relation

variable (R : Limit → Limit → Prop)

/-- The same header, but for limits; `R` holds between those that stand at the same place. -/
inductive Header.Relimited : Header → Header → Prop
  | plain (format : IntFormat) : Relimited (plain format) (plain format)
  | framed {inner inner' header header' : Header} {limit limit' : Limit} :
    Relimited inner inner' → Relimited header header' → R limit limit' →
      Relimited (framed inner header limit) (framed inner' header' limit')

/-- Only the limit of a length that is held in a header is looked at. -/
inductive Length.Relimited : Length → Limit → Length → Limit → Prop
  | fixed (n : Nat) (limit limit' : Limit) : Relimited (fixed n) limit (fixed n) limit'
  | counted {header header' : Header} {limit limit' : Limit} :
    header.Relimited R header' → R limit limit' →
      Relimited (counted header) limit (counted header') limit'
  | remainder (limit limit' : Limit) : Relimited remainder limit remainder limit'

inductive Field.Alike {α : Type} (S : α → α → Prop) : Field α → Field α → Prop
  | mk (name : Option String) {s t : α} : S s t → Alike S ⟨name, s⟩ ⟨name, t⟩

inductive Variant.Alike {α : Type} (S : α → α → Prop) : Variant α → Variant α → Prop
  | mk (tag : Nat) (label : String) {s t : α} : S s t → Alike S ⟨tag, label, s⟩ ⟨tag, label, t⟩

open Schema in
/-- The same schema, but for limits; `R` holds between those that are looked at. -/
inductive Schema.Relimited : Schema → Schema → Prop
  | int (format : IntFormat) : Relimited (int format) (int format)
  | float (precision : Precision) (order : ByteOrder) :
    Relimited (float precision order) (float precision order)
  | bool {header header' : Header} :
    header.Relimited R header' → Relimited (bool header) (bool header')
  | slot (content : Content) (pad : UInt8) (strip : Bool) {length length' : Length}
      {limit limit' : Limit} :
    length.Relimited R limit length' limit' →
      Relimited (slot content ⟨length, pad, strip, limit⟩)
        (slot content ⟨length', pad, strip, limit'⟩)
  | constant (bytes : List UInt8) : Relimited (constant bytes) (constant bytes)
  | record {fields fields' : List (Field Schema)} :
    List.Forall₂ (Field.Alike Relimited) fields fields' → Relimited (record fields) (record fields')
  | array {item item' : Schema} {length length' : Length} {limit limit' : Limit} :
    Relimited item item' → length.Relimited R limit length' limit' →
      Relimited (array item length limit) (array item' length' limit')
  | map (kind : MapKind) {key key' value value' : Schema} {length length' : Length}
      {limit limit' : Limit} :
    Relimited key key' → Relimited value value' → length.Relimited R limit length' limit' →
      Relimited (map kind key value length limit) (map kind key' value' length' limit')
  | option {header header' : Header} {inner inner' : Schema} :
    header.Relimited R header' → Relimited inner inner' →
      Relimited (option header inner) (option header' inner')
  | union {header header' : Header} {variants variants' : List (Variant Schema)} :
    header.Relimited R header' → List.Forall₂ (Variant.Alike Relimited) variants variants' →
      Relimited (union header variants) (union header' variants')
  | framed {inner inner' : Schema} {header header' : Header} {limit limit' : Limit} :
    Relimited inner inner' → header.Relimited R header' → R limit limit' →
      Relimited (framed inner header limit) (framed inner' header' limit')
  | converted (conversion : Conversion) {inner inner' : Schema} :
    Relimited inner inner' → Relimited (converted conversion inner) (converted conversion inner')

end Relation

variable {R : Limit → Limit → Prop} {α β γ : Type}

private theorem forall₂_of_mem {S T : α → β → Prop} {l : List α} {m : List β}
    (h : List.Forall₂ S l m) (each : ∀ a ∈ l, ∀ b, S a b → T a b) : List.Forall₂ T l m := by
  induction h with
  | nil => exact .nil
  | cons head tail ih =>
    apply List.Forall₂.cons (each _ List.mem_cons_self _ head)
    exact ih fun a ha => each a (List.mem_cons_of_mem _ ha)

private theorem fields_alike {S T : Schema → Schema → Prop} {fields fields' : List (Field Schema)}
    (h : List.Forall₂ (Field.Alike S) fields fields')
    (each : ∀ f ∈ fields, ∀ t, S f.schema t → T f.schema t) :
    List.Forall₂ (Field.Alike T) fields fields' := by
  apply forall₂_of_mem h
  intro f hf g alike
  cases alike with
  | mk name same => exact .mk name (each _ hf _ same)

private theorem variants_alike {S T : Schema → Schema → Prop}
    {variants variants' : List (Variant Schema)}
    (h : List.Forall₂ (Variant.Alike S) variants variants')
    (each : ∀ v ∈ variants, ∀ t, S v.schema t → T v.schema t) :
    List.Forall₂ (Variant.Alike T) variants variants' := by
  apply forall₂_of_mem h
  intro v hv w alike
  cases alike with
  | mk tag label same => exact .mk tag label (each _ hv _ same)

/-! Writers do not look at limits. -/

namespace Header

variable {header header' : Header}

theorem Relimited.size (h : header.Relimited R header') : header.size = header'.size := by
  induction h with
  | plain format => rfl
  | framed _ _ _ hinner hheader => simp only [Header.size, hinner, hheader]

theorem Relimited.encodeSize (h : header.Relimited R header') :
    header.encodeSize = header'.encodeSize := by
  induction h with
  | plain format => rfl
  | framed _ _ _ hinner hheader =>
    funext n
    simp only [Header.encodeSize, hinner, hheader]

theorem Relimited.write (h : header.Relimited R header') : header.write = header'.write := by
  induction h with
  | plain format => rfl
  | framed inner _ _ hinner hheader =>
    funext n offset
    simp only [Header.write, hinner, hheader, inner.encodeSize]

end Header

namespace Length

variable {length length' : Length} {limit limit' : Limit}

theorem Relimited.countSize (h : length.Relimited R limit length' limit') :
    length.countSize = length'.countSize := by
  cases h with
  | fixed => rfl
  | counted header _ =>
    funext count
    rw [Length.countSize, Length.countSize, header.encodeSize]
  | remainder => rfl

theorem Relimited.writeCount (h : length.Relimited R limit length' limit') :
    length.writeCount = length'.writeCount := by
  cases h with
  | fixed => rfl
  | counted header _ =>
    funext count offset
    rw [Length.writeCount, Length.writeCount, header.write]
  | remainder => rfl

theorem Relimited.itemsSize (h : length.Relimited R limit length' limit') :
    Items.size length = Items.size length' := by
  cases h <;> rfl

end Length

namespace Schema

structure WritesAlike (s t : Schema) : Prop where
  size : s.size = t.size
  encodeSize : s.encodeSize = t.encodeSize
  write : s.write = t.write

private theorem sizeAfter_alike {fields fields' : List (Field Schema)}
    (h : List.Forall₂ (Field.Alike WritesAlike) fields fields') (total : Size) :
    sizeAfter total fields = sizeAfter total fields' := by
  induction h generalizing total with
  | nil => rfl
  | cons head _ ih =>
    cases head with
    | mk name same => simp only [sizeAfter, same.size, ih]

private theorem encodeSizeAfter_alike {fields fields' : List (Field Schema)}
    (h : List.Forall₂ (Field.Alike WritesAlike) fields fields') (sum : Nat) (vs : List Value) :
    encodeSizeAfter sum fields vs = encodeSizeAfter sum fields' vs := by
  induction h generalizing sum vs with
  | nil => rfl
  | cons head _ ih =>
    cases head with
    | mk name same =>
      cases vs with
      | nil => rfl
      | cons v vs => simp only [encodeSizeAfter, same.encodeSize, ih]

private theorem writeFields_alike {fields fields' : List (Field Schema)}
    (h : List.Forall₂ (Field.Alike WritesAlike) fields fields') (vs : List Value) (offset : Nat) :
    writeFields fields vs offset = writeFields fields' vs offset := by
  induction h generalizing vs offset with
  | nil => rfl
  | cons head _ ih =>
    cases head with
    | mk name same =>
      cases vs with
      | nil => rfl
      | cons v vs => simp only [writeFields, same.write, ih]

private theorem commonSize_alike {variants variants' : List (Variant Schema)}
    (h : List.Forall₂ (Variant.Alike WritesAlike) variants variants') (before : Option Nat) :
    commonSize before variants = commonSize before variants' := by
  induction h generalizing before with
  | nil => rfl
  | cons head _ ih =>
    cases head with
    | mk tag label same => simp only [commonSize, same.size, ih]

private theorem encodeSizeCase_alike {header header' : Header}
    (hheader : header.encodeSize = header'.encodeSize) {variants variants' : List (Variant Schema)}
    (h : List.Forall₂ (Variant.Alike WritesAlike) variants variants') (label : String)
    (payload : Value) :
    encodeSizeCase header label payload variants =
      encodeSizeCase header' label payload variants' := by
  induction h with
  | nil => rfl
  | cons head _ ih =>
    cases head with
    | mk tag label same => simp only [encodeSizeCase, same.encodeSize, hheader, ih]

private theorem writeCase_alike {header header' : Header} (hheader : header.write = header'.write)
    {variants variants' : List (Variant Schema)}
    (h : List.Forall₂ (Variant.Alike WritesAlike) variants variants') (label : String)
    (payload : Value) (offset : Nat) :
    writeCase header label payload variants offset =
      writeCase header' label payload variants' offset := by
  induction h with
  | nil => rfl
  | cons head _ ih =>
    cases head with
    | mk tag label same => simp only [writeCase, same.write, hheader, ih]

private theorem slot_alike (content : Content) (pad : UInt8) (strip : Bool)
    {length length' : Length} {limit limit' : Limit}
    (h : length.Relimited R limit length' limit') :
    WritesAlike (slot content ⟨length, pad, strip, limit⟩)
      (slot content ⟨length', pad, strip, limit'⟩) := by
  cases h with
  | fixed => exact ⟨rfl, rfl, rfl⟩
  | counted header _ =>
    constructor
    · rfl
    · funext v
      simp only [encodeSize, Slot.encodeSize, header.encodeSize]
    · funext v offset
      simp only [write, Slot.write, header.write]
  | remainder => exact ⟨rfl, rfl, rfl⟩

theorem Relimited.writesAlike {s t : Schema} (h : s.Relimited R t) : s.WritesAlike t := by
  induction s generalizing t with
  | int format =>
    cases h
    exact ⟨rfl, rfl, rfl⟩
  | float precision order =>
    cases h
    exact ⟨rfl, rfl, rfl⟩
  | bool header =>
    cases h with
    | bool hheader =>
      constructor
      · exact hheader.size
      · funext v
        simp only [encodeSize, hheader.encodeSize]
      · funext v offset
        simp only [write, hheader.write]
  | slot content shape =>
    cases h with
    | slot _ pad strip hlength => exact slot_alike content pad strip hlength
  | constant bytes =>
    cases h
    exact ⟨rfl, rfl, rfl⟩
  | record fields each =>
    cases h with
    | record related =>
      have alike := fields_alike related fun f hf t h => each f hf h
      constructor
      · exact sizeAfter_alike alike _
      · funext v
        simp only [encodeSize, encodeSizeAfter_alike alike]
      · funext v offset
        simp only [write, writeFields_alike alike]
  | array item length limit hitem =>
    cases h with
    | array hitem' hlength =>
      have same := hitem hitem'
      constructor
      · simp only [size, hlength.itemsSize, same.size]
      · funext v
        simp only [encodeSize, Items.encodeSize, hlength.countSize, same.size, same.encodeSize]
      · funext v offset
        simp only [write, Items.write, hlength.writeCount, same.write]
  | map kind key value length limit hkey hvalue =>
    cases h with
    | map _ hkey' hvalue' hlength =>
      have keys := hkey hkey'
      have values := hvalue hvalue'
      constructor
      · simp only [size, hlength.itemsSize, keys.size, values.size]
      · funext v
        simp only [encodeSize, Items.encodeSize, hlength.countSize, keys.size, values.size,
          keys.encodeSize, values.encodeSize]
      · funext v offset
        simp only [write, Items.write, hlength.writeCount, keys.write, values.write]
  | option header inner hinner =>
    cases h with
    | option hheader hinner' =>
      have same := hinner hinner'
      constructor
      · rfl
      · funext v
        simp only [encodeSize, hheader.encodeSize, same.encodeSize]
      · funext v offset
        simp only [write, hheader.write, same.write]
  | union header variants each =>
    cases h with
    | union hheader related =>
      have alike := variants_alike related fun v hv t h => each v hv h
      constructor
      · simp only [size, hheader.size, commonSize_alike alike]
      · funext v
        simp only [encodeSize, encodeSizeCase_alike hheader.encodeSize alike]
      · funext v offset
        simp only [write, writeCase_alike hheader.write alike]
  | framed inner header limit hinner =>
    cases h with
    | framed hinner' hheader _ =>
      have same := hinner hinner'
      constructor
      · simp only [size, hheader.size, same.size]
      · funext v
        simp only [encodeSize, hheader.encodeSize, same.encodeSize]
      · funext v offset
        simp only [write, hheader.write, same.encodeSize, same.write]
  | converted conversion inner hinner =>
    cases h with
    | converted _ hinner' =>
      have same := hinner hinner'
      constructor
      · simp only [size, same.size]
      · funext v
        simp only [encodeSize, same.size, same.encodeSize]
      · funext v offset
        simp only [write, same.write]

end Schema

/-! Readers under narrower limits refuse some lengths, and that is all. -/

/-- The failure is that of a limit, which does not let a length pass that was read. -/
def Located.Excludes (l : Located) : Prop :=
  ∃ limit k, l.failure = .error (.invalidLength k) ∧ l.site.cause = .excluded limit k ∧
    limit.contains k = false

namespace Tracing

/-- Both steps answer the same, unless a limit stops the first one. -/
structure Filters (x y : Tracing α) : Prop where
  keeps : ∀ a, x = .ok a → y = .ok a
  stops : ∀ a, y = .ok a → x = .ok a ∨ ∃ l, x = .error l ∧ l.Excludes

namespace Filters

theorem refl (x : Tracing α) : Filters x x := ⟨fun _ h => h, fun _ h => .inl h⟩

theorem bind_of {x y : Tracing α} {f g : α → Tracing β} (h : Filters x y)
    (hf : ∀ a, y = .ok a → Filters (f a) (g a)) : Filters (x >>= f) (y >>= g) := by
  constructor
  · intro b hb
    cases x with
    | ok a =>
      have read := h.keeps a rfl
      rw [read]
      exact (hf a read).keeps b hb
    | error l => cases hb
  · intro b hb
    cases y with
    | ok a =>
      rcases h.stops a rfl with rfl | ⟨l, rfl, excluded⟩
      · exact (hf a rfl).stops b hb
      · exact .inr ⟨l, rfl, excluded⟩
    | error m => cases hb

theorem bind {x y : Tracing α} {f g : α → Tracing β} (h : Filters x y)
    (hf : ∀ a, Filters (f a) (g a)) : Filters (x >>= f) (y >>= g) :=
  h.bind_of fun a _ => hf a

theorem inside {x y : Tracing α} (place : Site → Site)
    (same : ∀ site, (place site).cause = site.cause) (h : Filters x y) :
    Filters (x.inside place) (y.inside place) := by
  constructor
  · intro a ha
    cases x with
    | ok b =>
      cases ha
      rw [h.keeps a rfl]
      rfl
    | error l => cases ha
  · intro a ha
    cases y with
    | ok b =>
      cases ha
      rcases h.stops a rfl with rfl | ⟨l, rfl, limit, k, failure, cause, outside⟩
      · exact .inl rfl
      · exact .inr ⟨_, rfl, limit, k, failure, (same l.site).trans cause, outside⟩
    | error m => cases ha

theorem check {limit limit' : Limit} (narrows : limit.Narrows limit') {n : Nat}
    (small : n < addressSpace) :
    Filters (Tracing.of (.excluded limit n) (limit.check n))
      (Tracing.of (.excluded limit' n) (limit'.check n)) := by
  by_cases within : limit.contains n = true
  · have passed := Limit.check_eq_ok_iff (u := ()).mpr within
    have passed' := Limit.check_eq_ok_iff (u := ()).mpr (narrows n small within)
    rw [passed, passed']
    exact refl _
  · constructor
    · intro u hu
      rw [Limit.check, if_neg within] at hu
      cases hu
    · intro u _
      rw [Limit.check, if_neg within]
      exact .inr ⟨_, rfl, limit, n, rfl, rfl, Bool.eq_false_of_not_eq_true within⟩

theorem times {item item' : Nat → Tracing (α × Nat)} (each : ∀ a, Filters (item a) (item' a))
    (n offset : Nat) : Filters (times item n offset) (times item' n offset) := by
  induction n generalizing offset with
  | zero => exact refl _
  | succ n ih => exact (each offset).bind fun r => (ih r.2).bind fun _ => refl _

theorem toEnd {item item' : Nat → Tracing (α × Nat)} (each : ∀ a, Filters (item a) (item' a))
    (stop fuel offset : Nat) :
    Filters (toEnd item stop fuel offset) (toEnd item' stop fuel offset) := by
  induction fuel using Nat.strong_induction_on generalizing offset with
  | _ fuel ih =>
    rw [Tracing.toEnd, Tracing.toEnd]
    by_cases ended : stop ≤ offset
    · rw [if_pos ended, if_pos ended]
      exact refl _
    · rw [if_neg ended, if_neg ended]
      apply (each offset).bind
      intro r
      by_cases same : r.2 = offset
      · simp only [if_pos same]
        exact refl _
      · simp only [if_neg same]
        cases fuel with
        | zero => exact refl _
        | succ fuel => exact (ih fuel (Nat.lt_succ_self fuel) r.2).bind fun _ => refl _

end Filters
end Tracing

open Tracing

theorem Frame.trace_filters {header header' : Bytes → Nat → Tracing (Nat × Nat)}
    {payload payload' : Bytes → Nat → Tracing (α × Nat)} {limit limit' : Limit}
    (hheader : ∀ bytes offset, Filters (header bytes offset) (header' bytes offset))
    (counts : ∀ bytes offset r, header' bytes offset = .ok r → r.1 < addressSpace)
    (narrows : limit.Narrows limit')
    (hpayload : ∀ bytes offset, Filters (payload bytes offset) (payload' bytes offset))
    (bytes : Bytes) (offset : Nat) :
    Filters (Frame.trace header limit payload bytes offset)
      (Frame.trace header' limit' payload' bytes offset) := by
  apply (hheader bytes offset).bind_of
  intro r hr
  apply (Filters.check narrows (counts bytes offset r hr)).bind
  intro _
  apply (Filters.refl _).bind
  intro inside
  apply ((hpayload inside 0).inside .payload fun _ => rfl).bind
  intro s
  exact .refl _

namespace Header

variable {header header' : Header}

theorem lt_of_traceCount {bytes : Bytes} {offset : Nat} {r : Nat × Nat}
    (h : header.traceCount bytes offset = .ok r) : r.1 < addressSpace := by
  obtain ⟨⟨v, stop⟩, -, h⟩ := Outcome.bind_eq_ok.mp h
  obtain ⟨n, hn, h⟩ := Outcome.bind_eq_ok.mp h
  cases h
  exact (toCount_eq_ok_iff.mp (Tracing.of_eq_ok hn)).2

theorem Relimited.trace_filters (h : header.Relimited Limit.Narrows header') (bytes : Bytes)
    (offset : Nat) : Filters (header.trace bytes offset) (header'.trace bytes offset) := by
  induction h generalizing bytes offset with
  | plain format => exact .refl _
  | framed _ _ narrows hinner hheader =>
    refine Frame.trace_filters (fun bytes offset => ?_) (fun _ _ _ => lt_of_traceCount) narrows
      hinner bytes offset
    exact (hheader bytes offset).bind fun _ => .refl _

theorem Relimited.traceCount_filters (h : header.Relimited Limit.Narrows header') (bytes : Bytes)
    (offset : Nat) : Filters (header.traceCount bytes offset) (header'.traceCount bytes offset) :=
  (h.trace_filters bytes offset).bind fun _ => .refl _

end Header

namespace Length

variable {length length' : Length} {limit limit' : Limit}

theorem Relimited.traceCount_filters (h : length.Relimited Limit.Narrows limit length' limit')
    (bytes : Bytes) (offset : Nat) :
    Filters (length.traceCount limit bytes offset) (length'.traceCount limit' bytes offset) := by
  cases h with
  | fixed => exact .refl _
  | counted header narrows =>
    apply (header.traceCount_filters bytes offset).bind_of
    intro r hr
    exact (Filters.check narrows (Header.lt_of_traceCount hr)).bind fun _ => .refl _
  | remainder => exact .refl _

theorem Relimited.slot_filters (h : length.Relimited Limit.Narrows limit length' limit')
    (pad : UInt8) (strip : Bool) (bytes : Bytes) (offset : Nat) :
    Filters (Slot.trace ⟨length, pad, strip, limit⟩ bytes offset)
      (Slot.trace ⟨length', pad, strip, limit'⟩ bytes offset) := by
  cases h with
  | fixed => exact .refl _
  | counted header narrows =>
    apply (header.traceCount_filters bytes offset).bind_of
    intro r hr
    exact (Filters.check narrows (Header.lt_of_traceCount hr)).bind fun _ => .refl _
  | remainder => exact .refl _

theorem Relimited.items_filters {item item' : Nat → Tracing (α × Nat)}
    (h : length.Relimited Limit.Narrows limit length' limit')
    (each : ∀ a, Filters (item a) (item' a)) (size : Outcome Size) (bytes : Bytes) (offset : Nat) :
    Filters (Items.trace length limit size item bytes offset)
      (Items.trace length' limit' size item' bytes offset) := by
  apply (h.traceCount_filters bytes offset).bind
  rintro ⟨count, start⟩
  cases count with
  | some n => exact (Filters.refl _).bind fun _ => .times each n start
  | none =>
    apply (Filters.refl _).bind
    intro rest
    apply (Filters.refl _).bind
    intro size
    cases size with
    | varying => exact .toEnd each _ _ _
    | fixed n =>
      by_cases misaligned : 0 < n ∧ rest.size % n ≠ 0
      · simp only [if_pos misaligned]
        exact .refl _
      · simp only [if_neg misaligned]
        exact .toEnd each _ _ _

end Length

namespace Schema

/-- Reading a value of the first schema is reading one of the second, unless a limit stops it. -/
def TracesWithin (s t : Schema) : Prop :=
  ∀ bytes offset, Filters (s.trace bytes offset) (t.trace bytes offset)

private theorem traceBool_filters {header header' : Header} {bytes : Bytes} {offset : Nat}
    (h : Filters (header.traceCount bytes offset) (header'.traceCount bytes offset)) :
    Filters (traceBool header bytes offset) (traceBool header' bytes offset) := by
  unfold traceBool
  cases first : header.traceCount bytes offset with
  | ok r =>
    rw [h.keeps r first]
    exact .refl _
  | error l =>
    constructor
    · intro a ha
      cases ha
    · intro a ha
      cases second : header'.traceCount bytes offset with
      | ok r =>
        rcases h.stops r second with found | ⟨m, found, limit, k, failure, cause, outside⟩
        · cases first.symm.trans found
        · cases first.symm.trans found
          exact .inr ⟨_, rfl, limit, k, congrArg asBoolFailure failure, cause, outside⟩
      | error m =>
        rw [second] at ha
        cases ha

private theorem traceFields_filters {fields fields' : List (Field Schema)}
    (h : List.Forall₂ (Field.Alike TracesWithin) fields fields') (bytes : Bytes) (offset : Nat) :
    Filters (traceFields fields bytes offset) (traceFields fields' bytes offset) := by
  induction h generalizing offset with
  | nil => exact .refl _
  | cons head _ ih =>
    cases head with
    | mk name within =>
      have same (site : Site) : (fieldSite name offset site).cause = site.cause := by
        cases name <;> rfl
      apply ((within bytes offset).inside _ same).bind
      intro r
      exact (ih r.2).bind fun _ => .refl _

private theorem traceCase_filters {variants variants' : List (Variant Schema)}
    (h : List.Forall₂ (Variant.Alike TracesWithin) variants variants') (tag : Nat) (bytes : Bytes)
    (offset : Nat) :
    Filters (traceCase tag variants bytes offset) (traceCase tag variants' bytes offset) := by
  induction h with
  | nil => exact .refl _
  | cons head _ ih =>
    cases head with
    | mk own label within =>
      rw [traceCase, traceCase]
      by_cases same : own = tag
      · rw [if_pos same, if_pos same]
        exact (within bytes offset).bind fun _ => .refl _
      · rw [if_neg same, if_neg same]
        exact ih

theorem Relimited.tracesWithin {s t : Schema} (h : s.Relimited Limit.Narrows t) :
    s.TracesWithin t := by
  induction s generalizing t with
  | int format =>
    cases h
    exact fun _ _ => .refl _
  | float precision order =>
    cases h
    exact fun _ _ => .refl _
  | bool header =>
    cases h with
    | bool hheader =>
      intro bytes offset
      rw [trace, trace]
      exact traceBool_filters (hheader.traceCount_filters bytes offset)
  | slot content shape =>
    cases h with
    | slot _ pad strip hlength =>
      intro bytes offset
      rw [trace, trace]
      exact (hlength.slot_filters pad strip bytes offset).bind fun _ => .refl _
  | constant bytes =>
    cases h
    exact fun _ _ => .refl _
  | record fields each =>
    cases h with
    | record related =>
      intro bytes offset
      have alike := fields_alike related fun f hf t h => each f hf h
      rw [trace, trace]
      exact (traceFields_filters alike bytes offset).bind fun _ => .refl _
  | array item length limit hitem =>
    cases h with
    | array hitem' hlength =>
      intro bytes offset
      rw [trace, trace, hitem'.writesAlike.size]
      exact (hlength.items_filters (hitem hitem' bytes) _ bytes offset).bind fun _ => .refl _
  | map kind key value length limit hkey hvalue =>
    cases h with
    | map _ hkey' hvalue' hlength =>
      intro bytes offset
      rw [trace, trace, hkey'.writesAlike.size, hvalue'.writesAlike.size]
      refine (hlength.items_filters (fun a => ?_) _ bytes offset).bind fun _ => .refl _
      apply (hkey hkey' bytes a).bind
      intro r
      exact (hvalue hvalue' bytes r.2).bind fun _ => .refl _
  | option header inner hinner =>
    cases h with
    | option hheader hinner' =>
      intro bytes offset
      rw [trace, trace]
      apply (hheader.traceCount_filters bytes offset).bind
      intro r
      cases r with
      | mk tag middle =>
        cases tag with
        | zero => exact .refl _
        | succ tag =>
          cases tag with
          | zero => exact (hinner hinner' bytes middle).bind fun _ => .refl _
          | succ tag => exact .refl _
  | union header variants each =>
    cases h with
    | union hheader related =>
      intro bytes offset
      have alike := variants_alike related fun v hv t h => each v hv h
      rw [trace, trace]
      apply (hheader.traceCount_filters bytes offset).bind
      intro r
      exact traceCase_filters alike r.1 bytes r.2
  | framed inner header limit hinner =>
    cases h with
    | framed hinner' hheader narrows =>
      intro bytes offset
      rw [trace, trace]
      exact Frame.trace_filters hheader.traceCount_filters
        (fun _ _ _ => Header.lt_of_traceCount) narrows (hinner hinner') bytes offset
  | converted conversion inner hinner =>
    cases h with
    | converted _ hinner' =>
      intro bytes offset
      rw [trace, trace]
      exact (hinner hinner' bytes offset).bind fun _ => .refl _

end Schema

/-! Limits on lengths that no header holds are not looked at. -/

theorem Header.Relimited.eq {header header' : Header} (h : header.Relimited Eq header') :
    header = header' := by
  induction h with
  | plain format => rfl
  | framed _ _ same hinner hheader => rw [same, hinner, hheader]

namespace Length

variable {length length' : Length} {limit limit' : Limit}

theorem Relimited.readCount (h : length.Relimited Eq limit length' limit') :
    length.readCount limit = length'.readCount limit' := by
  cases h with
  | fixed => rfl
  | counted header same => rw [header.eq, same]
  | remainder => rfl

theorem Relimited.slot_read (h : length.Relimited Eq limit length' limit') (pad : UInt8)
    (strip : Bool) :
    Slot.read ⟨length, pad, strip, limit⟩ = Slot.read ⟨length', pad, strip, limit'⟩ := by
  cases h with
  | fixed => rfl
  | counted header same => rw [header.eq, same]
  | remainder => rfl

end Length

namespace Schema

structure ReadsAlike (s t : Schema) : Prop where
  read : s.read = t.read

private theorem readFields_alike {fields fields' : List (Field Schema)}
    (h : List.Forall₂ (Field.Alike ReadsAlike) fields fields') (bytes : Bytes)
    (offset : Nat) : readFields fields bytes offset = readFields fields' bytes offset := by
  induction h generalizing offset with
  | nil => rfl
  | cons head _ ih =>
    cases head with
    | mk name same => simp only [readFields, same.read, ih]

private theorem readCase_alike {variants variants' : List (Variant Schema)}
    (h : List.Forall₂ (Variant.Alike ReadsAlike) variants variants') (tag : Nat)
    (bytes : Bytes) (offset : Nat) :
    readCase tag variants bytes offset = readCase tag variants' bytes offset := by
  induction h with
  | nil => rfl
  | cons head _ ih =>
    cases head with
    | mk own label same => simp only [readCase, same.read, ih]

theorem Relimited.readsAlike {s t : Schema} (h : s.Relimited Eq t) : s.ReadsAlike t := by
  induction s generalizing t with
  | int format =>
    cases h
    exact ⟨rfl⟩
  | float precision order =>
    cases h
    exact ⟨rfl⟩
  | bool header =>
    cases h with
    | bool hheader =>
      rw [hheader.eq]
      exact ⟨rfl⟩
  | slot content shape =>
    cases h with
    | slot _ pad strip hlength =>
      constructor
      funext bytes offset
      simp only [read, hlength.slot_read]
  | constant bytes =>
    cases h
    exact ⟨rfl⟩
  | record fields each =>
    cases h with
    | record related =>
      have alike := fields_alike related fun f hf t h => each f hf h
      constructor
      funext bytes offset
      simp only [read, readFields_alike alike]
  | array item length limit hitem =>
    cases h with
    | array hitem' hlength =>
      constructor
      funext bytes offset
      simp only [read, Items.read, hlength.readCount, (hitem hitem').read, hitem'.writesAlike.size]
  | map kind key value length limit hkey hvalue =>
    cases h with
    | map _ hkey' hvalue' hlength =>
      constructor
      funext bytes offset
      simp only [read, Items.read, hlength.readCount, (hkey hkey').read, (hvalue hvalue').read,
        hkey'.writesAlike.size, hvalue'.writesAlike.size]
  | option header inner hinner =>
    cases h with
    | option hheader hinner' =>
      constructor
      funext bytes offset
      simp only [read, hheader.eq, (hinner hinner').read]
  | union header variants each =>
    cases h with
    | union hheader related =>
      have alike := variants_alike related fun v hv t h => each v hv h
      constructor
      funext bytes offset
      simp only [read, hheader.eq, readCase_alike alike]
  | framed inner header limit hinner =>
    cases h with
    | framed hinner' hheader same =>
      constructor
      funext bytes offset
      simp only [read, hheader.eq, same, (hinner hinner').read]
  | converted conversion inner hinner =>
    cases h with
    | converted _ hinner' =>
      constructor
      funext bytes offset
      simp only [read, (hinner hinner').read]

theorem WritesAlike.encode {s t : Schema} (h : s.WritesAlike t) : s.encode = t.encode := by
  funext v
  rw [Schema.encode, Schema.encode, h.encodeSize, h.write]

/-- Limits change nothing about writing, and narrower ones nothing about reading but that a length
outside of one of them is refused.  Those that are not looked at change nothing at all. -/
theorem limits_filter (s t : Schema) :
    (∀ R, s.Relimited R t →
      s.size = t.size ∧ s.encodeSize = t.encodeSize ∧ s.encode = t.encode ∧ s.write = t.write) ∧
    (s.Relimited Limit.Narrows t → ∀ bytes offset v stop,
      ((s.read bytes offset).outcome = .ok (v, stop) →
        (t.read bytes offset).outcome = .ok (v, stop)) ∧
      ((t.read bytes offset).outcome = .ok (v, stop) →
        (s.read bytes offset).outcome = .ok (v, stop) ∨
        ∃ limit k site, limit.contains k = false ∧ site.cause = .excluded limit k ∧
          s.trace bytes offset = .error ⟨.error (.invalidLength k), site⟩ ∧
          (s.read bytes offset).outcome = .error (.error (.invalidLength k)))) ∧
    (s.Relimited Eq t → s.read = t.read ∧ s.decode = t.decode) := by
  refine ⟨fun R related => ?_, fun narrower bytes offset v stop => ?_, fun same => ?_⟩
  · have alike := related.writesAlike
    exact ⟨alike.size, alike.encodeSize, alike.encode, alike.write⟩
  · have filters := narrower.tracesWithin bytes offset
    rw [← trace_outcome, ← trace_outcome]
    constructor
    · intro h
      rw [filters.keeps _ (eq_ok_of_outcome h)]
      rfl
    · intro h
      rcases filters.stops _ (eq_ok_of_outcome h) with
        kept | ⟨l, stopped, limit, k, failure, cause, outside⟩
      · rw [kept]
        exact .inl rfl
      · cases l with
        | mk failure' site =>
          cases failure
          exact .inr ⟨limit, k, site, outside, cause, stopped, congrArg outcome stopped⟩
  · have reads := same.readsAlike.read
    refine ⟨reads, ?_⟩
    funext bytes
    rw [decode, decode, same.writesAlike.size, reads]

/-- Texts in a frame, behind lengths that are in frames of their own. -/
def crate (text payload rest : Limit) : Schema :=
  framed
    (array
      (slot (.text .utf8)
        ⟨.counted (.framed (.plain .compact) (.plain (.word false .one .big)) text), 0, false,
          text⟩)
      .remainder rest)
    (.plain (.word false .one .big)) payload

theorem crate_relimited {text text' payload payload' : Limit} (htext : R text text')
    (hpayload : R payload payload') (rest rest' : Limit) :
    (crate text payload rest).Relimited R (crate text' payload' rest') := by
  have counted := Header.Relimited.framed (.plain .compact) (.plain (.word false .one .big)) htext
  have item := Schema.Relimited.slot (.text .utf8) 0 false (.counted counted htext)
  exact .framed (.array item (.remainder rest rest')) (.plain _) hpayload

set_option maxRecDepth 4000 in
/-- Three bytes are too many for the first schema. -/
theorem limits_filter_crate :
    let short : Limit := ⟨.unbounded, .excluded 3⟩
    (crate short .all .all).Relimited Limit.Narrows (crate .all .all (.exact 7)) ∧
    (crate .all .all .all).Relimited Eq (crate .all .all (.exact 7)) ∧
    (crate short .all .all).encode (.list [.text "abc"]) =
      (crate .all .all (.exact 7)).encode (.list [.text "abc"]) ∧
    ((crate .all .all (.exact 7)).read #[9, 4, 1, 2, 104, 105] 1).outcome =
      .ok (.list [.text "hi"], 6) ∧
    ((crate .all .all (.exact 7)).read #[5, 1, 3, 97, 98, 99] 0).outcome =
      .ok (.list [.text "abc"], 6) ∧
    ((crate short .all .all).read #[5, 1, 3, 97, 98, 99] 0).outcome =
      .error (.error (.invalidLength 3)) ∧
    (crate .all .all .all).decode #[5, 1, 3, 97, 98, 99] =
      (crate .all .all (.exact 7)).decode #[5, 1, 3, 97, 98, 99] := by
  intro short
  have narrower : (crate short .all .all).Relimited Limit.Narrows (crate .all .all (.exact 7)) :=
    crate_relimited (fun _ _ _ => rfl) (fun _ _ _ => rfl) _ _
  have same : (crate .all .all .all).Relimited Eq (crate .all .all (.exact 7)) :=
    crate_relimited rfl rfl _ _
  have accepted : ((crate .all .all (.exact 7)).read #[5, 1, 3, 97, 98, 99] 0).outcome =
      .ok (.list [.text "abc"], 6) := rfl
  obtain ⟨writes, filters, -⟩ := limits_filter (crate short .all .all) (crate .all .all (.exact 7))
  obtain ⟨-, -, ignored⟩ := limits_filter (crate .all .all .all) (crate .all .all (.exact 7))
  refine ⟨narrower, same, ?_, ?_, accepted, ?_, ?_⟩
  · rw [(writes _ narrower).2.2.1]
  · exact (filters narrower _ 1 _ _).1 rfl
  · rcases (filters narrower _ 0 _ _).2 accepted with kept | ⟨limit, k, site, -, -, -, stopped⟩
    · cases kept
    · cases stopped
      rfl
  · rw [(ignored same).2]

end Schema
end ByteSchema
