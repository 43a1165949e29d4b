import ByteSchema.Schema.Validity
import ByteSchema.Proofs.ItemImages

/-!
# The parts of a schema and their sizes

Sizes need not be known all over a schema: a header of varying size hides what is behind it.  So a
claim about a whole schema asks for the sizes of all schemas inside.  A fixed size is different,
since it is only answered when all parts have one.  A schema that is valid has valid parts, too.
-/
namespace ByteSchema.Schema

/-- The schemas right below a schema. -/
def parts : Schema → List Schema
  | int _ | float _ _ | bool _ | slot _ _ | constant _ => []
  | record fields => fields.map (·.schema)
  | array item _ _ => [item]
  | map _ key value _ _ => [key, value]
  | option _ inner => [inner]
  | union _ variants => variants.map (·.schema)
  | framed inner _ _ => [inner]
  | converted _ inner => [inner]

mutual

/-- A schema and all schemas inside it. -/
def nodes : Schema → List Schema
  | int format => [int format]
  | float precision order => [float precision order]
  | bool header => [bool header]
  | slot content shape => [slot content shape]
  | constant bytes => [constant bytes]
  | record fields => record fields :: fieldNodes fields
  | array item length limit => array item length limit :: item.nodes
  | map kind key value length limit =>
    map kind key value length limit :: (key.nodes ++ value.nodes)
  | option header inner => option header inner :: inner.nodes
  | union header variants => union header variants :: variantNodes variants
  | framed inner header limit => framed inner header limit :: inner.nodes
  | converted conversion inner => converted conversion inner :: inner.nodes

def fieldNodes : List (Field Schema) → List Schema
  | [] => []
  | f :: fields => f.schema.nodes ++ fieldNodes fields

def variantNodes : List (Variant Schema) → List Schema
  | [] => []
  | v :: variants => v.schema.nodes ++ variantNodes variants

end

/-- `P` holds of the schema and of all schemas inside. -/
def Everywhere (P : Schema → Prop) (s : Schema) : Prop := ∀ t ∈ s.nodes, P t

instance (P : Schema → Prop) [DecidablePred P] (s : Schema) : Decidable (s.Everywhere P) :=
  inferInstanceAs (Decidable (∀ t ∈ s.nodes, P t))

variable {P Q : Schema → Prop} {s t u : Schema}

private theorem fieldNodes_eq (fields : List (Field Schema)) :
    fieldNodes fields = fields.flatMap (·.schema.nodes) := by
  induction fields with
  | nil => rfl
  | cons f fields ih => rw [fieldNodes, ih, List.flatMap_cons]

private theorem variantNodes_eq (variants : List (Variant Schema)) :
    variantNodes variants = variants.flatMap (·.schema.nodes) := by
  induction variants with
  | nil => rfl
  | cons v variants ih => rw [variantNodes, ih, List.flatMap_cons]

theorem nodes_eq (s : Schema) : s.nodes = s :: s.parts.flatMap nodes := by
  cases s with
  | record fields => rw [nodes, parts, fieldNodes_eq, List.flatMap_map]
  | union header variants => rw [nodes, parts, variantNodes_eq, List.flatMap_map]
  | _ => simp [nodes, parts]

theorem Everywhere.here (h : s.Everywhere P) : P s :=
  h s (nodes_eq s ▸ List.mem_cons_self)

theorem Everywhere.part (h : s.Everywhere P) (isPart : u ∈ s.parts) : u.Everywhere P := by
  intro t ht
  have below : t ∈ s.parts.flatMap nodes := List.mem_flatMap_of_mem isPart ht
  exact h t (nodes_eq s ▸ List.mem_cons_of_mem s below)

theorem Everywhere.field {fields : List (Field Schema)} {f : Field Schema}
    (h : (record fields).Everywhere P) (hf : f ∈ fields) : f.schema.Everywhere P :=
  h.part (List.mem_map_of_mem hf)

theorem Everywhere.variant {header : Header} {variants : List (Variant Schema)}
    {v : Variant Schema} (h : (union header variants).Everywhere P) (hv : v ∈ variants) :
    v.schema.Everywhere P :=
  h.part (List.mem_map_of_mem hv)

theorem Everywhere.pair {kind : MapKind} {key value : Schema} {length : Length} {limit : Limit}
    (h : (map kind key value length limit).Everywhere P) :
    key.Everywhere P ∧ value.Everywhere P :=
  ⟨h.part List.mem_cons_self, h.part (List.mem_cons_of_mem _ List.mem_cons_self)⟩

theorem Everywhere.mono (h : s.Everywhere P) (weaker : ∀ t, P t → Q t) : s.Everywhere Q :=
  fun t ht => weaker t (h t ht)

/-- Induction that does not ask how a schema is built from its parts. -/
theorem parts_induction {motive : Schema → Prop}
    (step : ∀ s, (∀ u ∈ s.parts, motive u) → motive s) (s : Schema) : motive s := by
  induction s with
  | int | float | bool | slot | constant => exact step _ (by simp [parts])
  | record fields each => exact step _ (by simpa [parts] using each)
  | array item length limit hitem => exact step _ (by simpa [parts] using hitem)
  | map kind key value length limit hkey hvalue =>
    exact step _ (by simpa [parts] using ⟨hkey, hvalue⟩)
  | option header inner hinner => exact step _ (by simpa [parts] using hinner)
  | union header variants each => exact step _ (by simpa [parts] using each)
  | framed inner header limit hinner => exact step _ (by simpa [parts] using hinner)
  | converted conversion inner hinner => exact step _ (by simpa [parts] using hinner)

/-- What passes from a schema to its parts holds everywhere inside. -/
theorem everywhere_of_parts (hereditary : ∀ s, P s → ∀ u ∈ s.parts, P u) (h : P s) :
    s.Everywhere P := by
  induction s using parts_induction with
  | step s ih =>
    intro t ht
    rw [nodes_eq, List.mem_cons, List.mem_flatMap] at ht
    rcases ht with rfl | ⟨u, isPart, below⟩
    · exact h
    · exact ih u isPart (hereditary s h u isPart) t below

private theorem field_valid {fields : List (Field Schema)} {f : Field Schema}
    (h : validateFields fields = .ok ()) (hf : f ∈ fields) : f.schema.validate = .ok () := by
  induction fields with
  | nil => cases hf
  | cons g fields ih =>
    obtain ⟨_, hg, h⟩ := Outcome.bind_eq_ok.mp h
    cases hf with
    | head => exact hg
    | tail _ hf => exact ih h hf

private theorem variants_valid {tags : List Nat} {variants : List (Variant Schema)}
    (h : validateVariants tags variants = .ok ()) :
    (variants.map (·.tag)).Nodup ∧
      ∀ v ∈ variants, v.tag ∉ tags ∧ v.schema.validate = .ok () := by
  induction variants generalizing tags with
  | nil => simp
  | cons v variants ih =>
    obtain ⟨_, hv, h⟩ := Outcome.bind_eq_ok.mp h
    by_cases again : v.tag ∈ tags
    · simp [again] at h
    · rw [if_neg again] at h
      obtain ⟨distinct, each⟩ := ih h
      have fresh : v.tag ∉ variants.map (·.tag) := by
        intro mem
        obtain ⟨w, hw, same⟩ := List.mem_map.mp mem
        exact (each w hw).1 (same ▸ List.mem_cons_self)
      refine ⟨List.nodup_cons.mpr ⟨fresh, distinct⟩, ?_⟩
      intro w hw
      rcases List.mem_cons.mp hw with rfl | hw
      · exact ⟨again, hv⟩
      · exact ⟨fun mem => (each w hw).1 (List.mem_cons_of_mem _ mem), (each w hw).2⟩

theorem tags_nodup {header : Header} {variants : List (Variant Schema)}
    (h : (union header variants).validate = .ok ()) : (variants.map (·.tag)).Nodup :=
  (variants_valid h).1

theorem part_valid (h : s.validate = .ok ()) (isPart : u ∈ s.parts) : u.validate = .ok () := by
  cases s with
  | int | float | bool | slot | constant => cases isPart
  | record fields =>
    obtain ⟨f, hf, rfl⟩ := List.mem_map.mp isPart
    exact field_valid h hf
  | array item length limit =>
    cases List.mem_singleton.mp isPart
    obtain ⟨_, hitem, _⟩ := Outcome.bind_eq_ok.mp h
    exact hitem
  | map kind key value length limit =>
    obtain ⟨_, hkey, h⟩ := Outcome.bind_eq_ok.mp h
    obtain ⟨_, hvalue, _⟩ := Outcome.bind_eq_ok.mp h
    have either : u = key ∨ u = value := by simpa [parts] using isPart
    rcases either with rfl | rfl
    · exact hkey
    · exact hvalue
  | union header variants =>
    obtain ⟨v, hv, rfl⟩ := List.mem_map.mp isPart
    exact ((variants_valid h).2 v hv).2
  | option header inner | framed inner header limit | converted conversion inner =>
    cases List.mem_singleton.mp isPart
    exact h

theorem pair_valid {kind : MapKind} {key value : Schema} {length : Length} {limit : Limit}
    (h : (map kind key value length limit).validate = .ok ()) :
    key.validate = .ok () ∧ value.validate = .ok () :=
  ⟨part_valid h List.mem_cons_self, part_valid h (List.mem_cons_of_mem _ List.mem_cons_self)⟩

/-- The size can be told without leaving the address space. -/
def Sized (s : Schema) : Prop := ∃ size, s.size = .ok size

instance : DecidablePred Sized := fun s =>
  match h : s.size with
  | .ok size => .isTrue ⟨size, h⟩
  | .error e => .isFalse fun ⟨size, h'⟩ => by cases h.symm.trans h'

/-- The size of items is asked for when a schema is checked. -/
theorem item_sized {item : Schema} {length : Length} {limit : Limit}
    (h : (array item length limit).validate = .ok ()) : item.Sized := by
  obtain ⟨_, _, h⟩ := Outcome.bind_eq_ok.mp h
  obtain ⟨size, hsize, _⟩ := Outcome.bind_eq_ok.mp h
  exact ⟨size, hsize⟩

theorem pair_sized {kind : MapKind} {key value : Schema} {length : Length} {limit : Limit}
    (h : (map kind key value length limit).validate = .ok ()) :
    ∃ size, Items.pairSize key.size value.size = .ok size := by
  obtain ⟨_, _, h⟩ := Outcome.bind_eq_ok.mp h
  obtain ⟨_, _, h⟩ := Outcome.bind_eq_ok.mp h
  obtain ⟨size, hsize, _⟩ := Outcome.bind_eq_ok.mp h
  exact ⟨size, hsize⟩

/-- A frame around a record with a union, a counted map and an array that goes on to its end. -/
def packet : Schema :=
  framed
    (struct
      [("kind", union (.plain (.word false .one .big))
          [⟨0, "ping", unit⟩,
            ⟨7, "data", tuple
              [converted (.raisedBy 1) (int .compact), bool (.plain (.word true .two .little))]⟩]),
        ("names", map .insertion (slot (.text .base16) ⟨.fixed 3, 0, true, .all⟩)
          (int (.word true .two .little)) (.counted (.plain .compact)) .all),
        ("rest", array (option (.plain (.word false .one .big)) (int .compact)) .remainder .all)])
    (.framed (.plain .compact) (.plain (.word false .one .big)) .all) (.exact 20)

/-- A value of `packet`, whose bytes are twenty in a frame with two bytes of length. -/
def packetValue : Value :=
  .list
    [.case "data" (.list [.int 299, .bool true]),
      .map [(.text "0aff", .int (-2)), (.text "", .int 5)],
      .list [.absent, .present (.int 128)]]

theorem packet_sized : packet.Everywhere Sized := by
  decide

variable {n : Nat}

private theorem fixed_of_sizeAfter {total : Size} {fields : List (Field Schema)}
    (h : sizeAfter total fields = .ok (.fixed n)) : ∃ t, total = .fixed t := by
  induction fields generalizing total with
  | nil =>
    cases h
    exact ⟨n, rfl⟩
  | cons f fields ih =>
    obtain ⟨size, _, h⟩ := Outcome.bind_eq_ok.mp h
    obtain ⟨sum, hsum, h⟩ := Outcome.bind_eq_ok.mp h
    obtain ⟨t, rfl⟩ := ih h
    obtain ⟨x, _, rfl, _⟩ := Size.add_eq_fixed_iff.mp hsum
    exact ⟨x, rfl⟩

/-- One field more is one fixed size more. -/
theorem sizeAfter_cons_eq_fixed {total : Nat} {f : Field Schema} {fields : List (Field Schema)}
    (h : sizeAfter (.fixed total) (f :: fields) = .ok (.fixed n)) :
    ∃ k, f.schema.size = .ok (.fixed k) ∧
      sizeAfter (.fixed (total + k)) fields = .ok (.fixed n) := by
  obtain ⟨size, hsize, h⟩ := Outcome.bind_eq_ok.mp h
  obtain ⟨sum, hsum, h⟩ := Outcome.bind_eq_ok.mp h
  obtain ⟨t, rfl⟩ := fixed_of_sizeAfter h
  obtain ⟨x, k, hx, rfl, -, rfl⟩ := Size.add_eq_fixed_iff.mp hsum
  cases hx
  exact ⟨k, hsize, h⟩

private theorem field_size_eq_fixed {total : Nat} {f : Field Schema} {fields : List (Field Schema)}
    (h : sizeAfter (.fixed total) fields = .ok (.fixed n)) (hf : f ∈ fields) :
    ∃ k, f.schema.size = .ok (.fixed k) := by
  induction fields generalizing total with
  | nil => cases hf
  | cons g fields ih =>
    obtain ⟨k, hk, h⟩ := sizeAfter_cons_eq_fixed h
    cases hf with
    | head => exact ⟨k, hk⟩
    | tail _ hf => exact ih h hf

theorem array_size_eq_fixed {item : Schema} {length : Length} {limit : Limit}
    (h : (array item length limit).size = .ok (.fixed n)) :
    ∃ size, item.size = .ok size ∧ Items.size length size = .fixed n := by
  obtain ⟨size, hsize, h⟩ := Outcome.bind_eq_ok.mp h
  exact ⟨size, hsize, Outcome.pure_eq_ok.mp h⟩

theorem map_size_eq_fixed {kind : MapKind} {key value : Schema} {length : Length} {limit : Limit}
    (h : (map kind key value length limit).size = .ok (.fixed n)) :
    ∃ size, Items.pairSize key.size value.size = .ok size ∧ Items.size length size = .fixed n := by
  obtain ⟨size, hsize, h⟩ := Outcome.bind_eq_ok.mp h
  exact ⟨size, hsize, Outcome.pure_eq_ok.mp h⟩

private theorem commonSize_eq_some {before : Option Nat} {variants : List (Variant Schema)}
    (h : commonSize before variants = .ok (some n)) :
    before.getD n = n ∧ ∀ v ∈ variants, v.schema.size = .ok (.fixed n) := by
  induction variants generalizing before with
  | nil =>
    cases h
    exact ⟨rfl, by simp⟩
  | cons v variants ih =>
    obtain ⟨size, hsize, h⟩ := Outcome.bind_eq_ok.mp h
    cases size with
    | varying => cases h
    | fixed k =>
      by_cases same : before.getD k = k
      · simp only [if_pos same] at h
        obtain ⟨hk, rest⟩ := ih h
        have equal : k = n := hk
        subst equal
        exact ⟨same, by simpa using ⟨hsize, rest⟩⟩
      · simp [if_neg same] at h

/-- A union of fixed size has variants of one size. -/
theorem union_size_eq_fixed {header : Header} {variants : List (Variant Schema)}
    (h : (union header variants).size = .ok (.fixed n)) :
    ∃ tag payload, header.size = .ok (.fixed tag) ∧
      (∀ v ∈ variants, v.schema.size = .ok (.fixed payload)) ∧ n = tag + payload := by
  obtain ⟨size, hsize, h⟩ := Outcome.bind_eq_ok.mp h
  cases size with
  | varying => cases h
  | fixed tag =>
    obtain ⟨common, hcommon, h⟩ := Outcome.bind_eq_ok.mp h
    cases common with
    | none => cases h
    | some payload =>
      obtain ⟨sum, hsum, h⟩ := Outcome.bind_eq_ok.mp h
      obtain ⟨-, rfl⟩ := checkedAdd_eq_ok_iff.mp hsum
      cases h
      exact ⟨tag, payload, hsize, (commonSize_eq_some hcommon).2, rfl⟩

theorem framed_size_eq_fixed {inner : Schema} {header : Header} {limit : Limit}
    (h : (framed inner header limit).size = .ok (.fixed n)) :
    ∃ x y, header.size = .ok (.fixed x) ∧ inner.size = .ok (.fixed y) ∧ n = x + y := by
  obtain ⟨outer, houter, h⟩ := Outcome.bind_eq_ok.mp h
  obtain ⟨payload, hpayload, h⟩ := Outcome.bind_eq_ok.mp h
  obtain ⟨x, y, rfl, rfl, -, rfl⟩ := Size.add_eq_fixed_iff.mp h
  exact ⟨x, y, houter, hpayload, rfl⟩

theorem part_size_eq_fixed (h : ∃ n, s.size = .ok (.fixed n)) (isPart : u ∈ s.parts) :
    ∃ n, u.size = .ok (.fixed n) := by
  obtain ⟨n, h⟩ := h
  cases s with
  | int | float | bool | slot | constant => cases isPart
  | record fields =>
    obtain ⟨f, hf, rfl⟩ := List.mem_map.mp isPart
    exact field_size_eq_fixed h hf
  | array item length limit =>
    cases List.mem_singleton.mp isPart
    obtain ⟨size, hsize, h⟩ := array_size_eq_fixed h
    obtain ⟨_, bytes, _, rfl, _⟩ := Items.size_eq_fixed_iff.mp h
    exact ⟨bytes, hsize⟩
  | map kind key value length limit =>
    obtain ⟨size, hsize, h⟩ := map_size_eq_fixed h
    obtain ⟨_, bytes, _, rfl, _⟩ := Items.size_eq_fixed_iff.mp h
    obtain ⟨x, y, hx, hy, _⟩ := Items.pairSize_eq_fixed_iff.mp hsize
    have either : u = key ∨ u = value := by simpa [parts] using isPart
    rcases either with rfl | rfl
    · exact ⟨x, hx⟩
    · exact ⟨y, hy⟩
  | option header inner => cases h
  | union header variants =>
    obtain ⟨v, hv, rfl⟩ := List.mem_map.mp isPart
    obtain ⟨_, payload, _, hvariants, _⟩ := union_size_eq_fixed h
    exact ⟨payload, hvariants v hv⟩
  | framed inner header limit =>
    cases List.mem_singleton.mp isPart
    obtain ⟨_, y, _, hy, _⟩ := framed_size_eq_fixed h
    exact ⟨y, hy⟩
  | converted conversion inner =>
    cases List.mem_singleton.mp isPart
    exact ⟨n, h⟩

/-- A schema of fixed size is sized all over. -/
theorem everywhere_sized_of_fixed (h : s.size = .ok (.fixed n)) : s.Everywhere Sized := by
  have fixed : s.Everywhere fun t => ∃ n, t.size = .ok (.fixed n) :=
    everywhere_of_parts (fun _ h _ isPart => part_size_eq_fixed h isPart) ⟨n, h⟩
  exact fixed.mono fun t ⟨k, hk⟩ => ⟨.fixed k, hk⟩

end ByteSchema.Schema
