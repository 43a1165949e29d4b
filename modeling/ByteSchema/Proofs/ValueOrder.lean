import ByteSchema.Value
import ByteSchema.Proofs.WordBytes

/-!
# The order of values

Values of different kinds compare by kind, so only values of one kind have to be looked into.
Comparing the other way round gives the opposite answer, and only equal values compare as equal.
-/
namespace ByteSchema.Value

private theorem induction {motive : Value → Prop}
    (unit : motive unit) (bool : ∀ b, motive (bool b)) (int : ∀ n, motive (int n))
    (float : ∀ x, motive (float x)) (text : ∀ s, motive (text s))
    (bytes : ∀ bs, motive (bytes bs))
    (list : ∀ items, (∀ v ∈ items, motive v) → motive (list items))
    (map : ∀ entries, (∀ e ∈ entries, motive e.1 ∧ motive e.2) → motive (map entries))
    (absent : motive absent) (present : ∀ v, motive v → motive (present v))
    (case : ∀ label payload, motive payload → motive (case label payload)) (v : Value) :
    motive v := by
  refine Value.rec (motive_1 := motive) (motive_2 := fun items => ∀ v ∈ items, motive v)
    (motive_3 := fun entries => ∀ e ∈ entries, motive e.1 ∧ motive e.2)
    (motive_4 := fun e => motive e.1 ∧ motive e.2)
    unit bool int float text bytes list map absent present case ?_ ?_ ?_ ?_ ?_ v
  · simp
  · intro v items hv hitems
    simpa using ⟨hv, hitems⟩
  · simp
  · intro e entries he hentries e' mem
    rcases List.mem_cons.mp mem with rfl | mem
    · exact he
    · exact hentries e' mem
  · intro key value hkey hvalue
    exact ⟨hkey, hvalue⟩

/-- Induction on two values side by side, as far as they are of the same kinds. -/
theorem pair_induction {motive : Value → Value → Prop}
    (other : ∀ v w : Value, v.rank ≠ w.rank → motive v w) (unit : motive unit unit)
    (bool : ∀ a b, motive (bool a) (bool b)) (int : ∀ a b, motive (int a) (int b))
    (float : ∀ a b, motive (float a) (float b)) (text : ∀ a b, motive (text a) (text b))
    (bytes : ∀ a b, motive (bytes a) (bytes b))
    (list : ∀ as bs, (∀ a ∈ as, ∀ b, motive a b) → motive (list as) (list bs))
    (map : ∀ as bs, (∀ e ∈ as, (∀ b, motive e.1 b) ∧ ∀ b, motive e.2 b) →
      motive (map as) (map bs))
    (absent : motive absent absent)
    (present : ∀ a b, motive a b → motive (present a) (present b))
    (case : ∀ l a m b, motive a b → motive (case l a) (case m b)) (v w : Value) : motive v w := by
  induction v using Value.induction generalizing w with
  | unit => cases w with | unit => exact unit | _ => exact other _ _ (by simp [rank])
  | bool a => cases w with | bool b => exact bool a b | _ => exact other _ _ (by simp [rank])
  | int a => cases w with | int b => exact int a b | _ => exact other _ _ (by simp [rank])
  | float a => cases w with | float b => exact float a b | _ => exact other _ _ (by simp [rank])
  | text a => cases w with | text b => exact text a b | _ => exact other _ _ (by simp [rank])
  | bytes a => cases w with | bytes b => exact bytes a b | _ => exact other _ _ (by simp [rank])
  | list as each =>
    cases w with | list bs => exact list as bs each | _ => exact other _ _ (by simp [rank])
  | map as each =>
    cases w with | map bs => exact map as bs each | _ => exact other _ _ (by simp [rank])
  | absent => cases w with | absent => exact absent | _ => exact other _ _ (by simp [rank])
  | present a ih =>
    cases w with | present b => exact present a b (ih b) | _ => exact other _ _ (by simp [rank])
  | case l a ih =>
    cases w with | case m b => exact case l a m b (ih b) | _ => exact other _ _ (by simp [rank])

theorem order_of_rank_ne {v w : Value} (other : v.rank ≠ w.rank) :
    v.order w = compare v.rank w.rank := by
  cases v <;> cases w <;> first | rfl | exact absurd rfl other

private theorem compareFloats_swap (x y : Floating) :
    compareFloats y x = (compareFloats x y).swap := by
  rw [compareFloats, compareFloats, Ordering.swap_then, ← Std.OrientedOrd.eq_swap,
    ← Std.OrientedOrd.eq_swap]

private theorem eq_of_compareFloats {x y : Floating} (h : compareFloats x y = .eq) : x = y := by
  rw [compareFloats, Ordering.then_eq_eq] at h
  have pattern := Std.LawfulEqOrd.eq_of_compare h.2
  have width := Std.LawfulEqOrd.eq_of_compare h.1
  have precision : x.precision = y.precision := by
    cases hx : x.precision <;> cases hy : y.precision <;> simp [hx, hy, Precision.bytes] at width ⊢
  rw [← Floating.ofPattern_pattern x, ← Floating.ofPattern_pattern y, pattern, precision]

private theorem orderLists_swap {as : List Value}
    (each : ∀ a ∈ as, ∀ b, b.order a = (a.order b).swap) (bs : List Value) :
    orderLists bs as = (orderLists as bs).swap := by
  induction as generalizing bs with
  | nil => cases bs <;> rfl
  | cons a as ih =>
    cases bs with
    | nil => rfl
    | cons b bs =>
      rw [orderLists, orderLists, Ordering.swap_then, each a List.mem_cons_self,
        ih fun c hc => each c (List.mem_cons_of_mem a hc)]

private theorem orderEntries_swap {as : List (Value × Value)}
    (each : ∀ e ∈ as, (∀ b, b.order e.1 = (e.1.order b).swap) ∧
      ∀ b, b.order e.2 = (e.2.order b).swap) (bs : List (Value × Value)) :
    orderEntries bs as = (orderEntries as bs).swap := by
  induction as generalizing bs with
  | nil => cases bs <;> rfl
  | cons a as ih =>
    cases bs with
    | nil => rfl
    | cons b bs =>
      obtain ⟨hkey, hvalue⟩ := each a List.mem_cons_self
      rw [orderEntries, orderEntries, Ordering.swap_then, Ordering.swap_then, hkey, hvalue,
        ih fun c hc => each c (List.mem_cons_of_mem a hc)]

/-- Comparing the other way round gives the opposite answer. -/
theorem order_swap (v w : Value) : w.order v = (v.order w).swap := by
  induction v, w using pair_induction with
  | other v w other =>
    rw [order_of_rank_ne other, order_of_rank_ne other.symm, Std.OrientedOrd.eq_swap]
  | unit => rfl
  | bool a b => exact Std.OrientedOrd.eq_swap
  | int a b => exact Std.OrientedOrd.eq_swap
  | float a b => exact compareFloats_swap a b
  | text a b => exact Std.OrientedOrd.eq_swap
  | bytes a b => exact Std.OrientedOrd.eq_swap
  | list as bs each => exact orderLists_swap each bs
  | map as bs each => exact orderEntries_swap each bs
  | absent => rfl
  | present a b ih => exact ih
  | case l a m b ih =>
    have labels : compare m l = (compare l m).swap := Std.OrientedOrd.eq_swap
    rw [order, order, Ordering.swap_then, labels, ih]

private theorem eq_of_orderLists {as bs : List Value}
    (each : ∀ a ∈ as, ∀ b, a.order b = .eq → a = b) (h : orderLists as bs = .eq) : as = bs := by
  induction as generalizing bs with
  | nil =>
    cases bs with
    | nil => rfl
    | cons b bs => cases h
  | cons a as ih =>
    cases bs with
    | nil => cases h
    | cons b bs =>
      rw [orderLists, Ordering.then_eq_eq] at h
      rw [each a List.mem_cons_self b h.1,
        ih (fun c hc => each c (List.mem_cons_of_mem a hc)) h.2]

private theorem eq_of_orderEntries {as bs : List (Value × Value)}
    (each : ∀ e ∈ as, (∀ b, e.1.order b = .eq → e.1 = b) ∧ ∀ b, e.2.order b = .eq → e.2 = b)
    (h : orderEntries as bs = .eq) : as = bs := by
  induction as generalizing bs with
  | nil =>
    cases bs with
    | nil => rfl
    | cons b bs => cases h
  | cons a as ih =>
    cases bs with
    | nil => cases h
    | cons b bs =>
      rw [orderEntries, Ordering.then_eq_eq, Ordering.then_eq_eq] at h
      obtain ⟨hkey, hvalue⟩ := each a List.mem_cons_self
      have entry : a = b := Prod.ext (hkey b.1 h.1.1) (hvalue b.2 h.1.2)
      rw [entry, ih (fun c hc => each c (List.mem_cons_of_mem a hc)) h.2]

/-- Only equal values compare as equal. -/
theorem eq_of_order {v w : Value} (h : v.order w = .eq) : v = w := by
  induction v, w using pair_induction with
  | other v w other =>
    rw [order_of_rank_ne other] at h
    exact absurd (Std.LawfulEqOrd.eq_of_compare h) other
  | unit => rfl
  | bool a b => exact congrArg bool (Std.LawfulEqOrd.eq_of_compare h)
  | int a b => exact congrArg int (Std.LawfulEqOrd.eq_of_compare h)
  | float a b => exact congrArg float (eq_of_compareFloats h)
  | text a b => exact congrArg text (Std.LawfulEqOrd.eq_of_compare h)
  | bytes a b => exact congrArg bytes (Std.LawfulEqOrd.eq_of_compare h)
  | list as bs each => exact congrArg list (eq_of_orderLists each h)
  | map as bs each => exact congrArg map (eq_of_orderEntries each h)
  | absent => rfl
  | present a b ih => exact congrArg present (ih h)
  | case l a m b ih =>
    rw [order, Ordering.then_eq_eq] at h
    rw [Std.LawfulEqOrd.eq_of_compare h.1, ih h.2]

theorem order_self (v : Value) : v.order v = .eq := by
  have same := order_swap v v
  cases h : v.order v with
  | eq => rfl
  | lt => simp [h] at same
  | gt => simp [h] at same

/-- Comparisons by a first and then a second criterion chain where those by the criteria do. -/
private theorem then_trans {x y z x' y' z' : Ordering} (first : x = .lt → y = .lt → z = .lt)
    (left : x = .eq → z = y) (right : y = .eq → z = x)
    (second : x' = .lt → y' = .lt → z' = .lt) (h : x.then x' = .lt) (h' : y.then y' = .lt) :
    z.then z' = .lt := by
  rw [Ordering.then_eq_lt] at h h' ⊢
  rcases h with lt | ⟨eq, lt⟩
  · rcases h' with lt' | ⟨eq', _⟩
    · exact .inl (first lt lt')
    · exact .inl ((right eq').trans lt)
  · rcases h' with lt' | ⟨eq', lt'⟩
    · exact .inl ((left eq).trans lt')
    · exact .inr ⟨(left eq).trans eq', second lt lt'⟩

private theorem compareFloats_trans {x y z : Floating} (h : compareFloats x y = .lt)
    (h' : compareFloats y z = .lt) : compareFloats x z = .lt := by
  refine then_trans Std.TransCmp.lt_trans ?_ ?_ Std.TransCmp.lt_trans h h'
  · intro eq
    rw [Std.LawfulEqOrd.eq_of_compare eq]
  · intro eq
    rw [Std.LawfulEqOrd.eq_of_compare eq]

private theorem compare_trans {α : Type} [Ord α] [Std.TransOrd α] (a b c : α)
    (h : compare a b = .lt) (h' : compare b c = .lt) : compare a c = .lt :=
  Std.TransCmp.lt_trans h h'

/-- `v` is below whatever is above a value that it is below. -/
private def Chained (v : Value) : Prop :=
  ∀ w u : Value, v.order w = .lt → w.order u = .lt → v.order u = .lt

private theorem orderLists_trans {as bs cs : List Value} (each : ∀ a ∈ as, Chained a)
    (h : orderLists as bs = .lt) (h' : orderLists bs cs = .lt) : orderLists as cs = .lt := by
  induction as generalizing bs cs with
  | nil =>
    cases bs with
    | nil => cases h
    | cons b bs =>
      cases cs with
      | nil => cases h'
      | cons c cs => rfl
  | cons a as ih =>
    cases bs with
    | nil => cases h
    | cons b bs =>
      cases cs with
      | nil => cases h'
      | cons c cs =>
        refine then_trans (each a List.mem_cons_self b c) ?_ ?_
          (ih fun d hd => each d (List.mem_cons_of_mem a hd)) h h'
        · intro eq
          rw [eq_of_order eq]
        · intro eq
          rw [eq_of_order eq]

private theorem orderEntries_trans {as bs cs : List (Value × Value)}
    (each : ∀ e ∈ as, Chained e.1 ∧ Chained e.2) (h : orderEntries as bs = .lt)
    (h' : orderEntries bs cs = .lt) : orderEntries as cs = .lt := by
  induction as generalizing bs cs with
  | nil =>
    cases bs with
    | nil => cases h
    | cons b bs =>
      cases cs with
      | nil => cases h'
      | cons c cs => rfl
  | cons a as ih =>
    cases bs with
    | nil => cases h
    | cons b bs =>
      cases cs with
      | nil => cases h'
      | cons c cs =>
        obtain ⟨keys, values⟩ := each a List.mem_cons_self
        have entry : (a.1.order b.1).then (a.2.order b.2) = .lt →
            (b.1.order c.1).then (b.2.order c.2) = .lt →
            (a.1.order c.1).then (a.2.order c.2) = .lt := by
          refine then_trans (keys b.1 c.1) ?_ ?_ (values b.2 c.2)
          · intro eq
            rw [eq_of_order eq]
          · intro eq
            rw [eq_of_order eq]
        refine then_trans entry ?_ ?_ (ih fun d hd => each d (List.mem_cons_of_mem a hd)) h h'
        · intro eq
          obtain ⟨key, value⟩ := Ordering.then_eq_eq.mp eq
          rw [eq_of_order key, eq_of_order value]
        · intro eq
          obtain ⟨key, value⟩ := Ordering.then_eq_eq.mp eq
          rw [eq_of_order key, eq_of_order value]

private theorem rank_le_of_order {v w : Value} (h : v.order w = .lt) : v.rank ≤ w.rank := by
  by_cases same : v.rank = w.rank
  · exact Nat.le_of_eq same
  · rw [order_of_rank_ne same] at h
    exact Nat.le_of_lt (Nat.compare_eq_lt.mp h)

/-- Values of different kinds compare by kind, so chains are looked into within one kind only: a
value between two of one kind is of that kind as well. -/
private theorem chained_of_rank {v : Value}
    (within : ∀ w u : Value, w.rank = v.rank → u.rank = v.rank → v.order w = .lt →
      w.order u = .lt → v.order u = .lt) : Chained v := by
  intro w u h h'
  have low := rank_le_of_order h
  have high := rank_le_of_order h'
  by_cases same : v.rank = u.rank
  · exact within w u (by omega) same.symm h h'
  · rw [order_of_rank_ne same]
    exact Nat.compare_eq_lt.mpr (by omega)

private theorem chained (v : Value) : Chained v := by
  induction v using Value.induction with
  | unit =>
    apply chained_of_rank
    intro w u hw _ h _
    cases w with
    | unit => cases h
    | _ => simp [rank] at hw
  | bool a =>
    apply chained_of_rank
    intro w u hw hu h h'
    cases w with
    | bool b => cases u with | bool c => exact compare_trans a b c h h' | _ => simp [rank] at hu
    | _ => simp [rank] at hw
  | int a =>
    apply chained_of_rank
    intro w u hw hu h h'
    cases w with
    | int b => cases u with | int c => exact compare_trans a b c h h' | _ => simp [rank] at hu
    | _ => simp [rank] at hw
  | float a =>
    apply chained_of_rank
    intro w u hw hu h h'
    cases w with
    | float b => cases u with | float c => exact compareFloats_trans h h' | _ => simp [rank] at hu
    | _ => simp [rank] at hw
  | text a =>
    apply chained_of_rank
    intro w u hw hu h h'
    cases w with
    | text b => cases u with | text c => exact compare_trans a b c h h' | _ => simp [rank] at hu
    | _ => simp [rank] at hw
  | bytes a =>
    apply chained_of_rank
    intro w u hw hu h h'
    cases w with
    | bytes b => cases u with | bytes c => exact compare_trans a b c h h' | _ => simp [rank] at hu
    | _ => simp [rank] at hw
  | list as each =>
    apply chained_of_rank
    intro w u hw hu h h'
    cases w with
    | list bs => cases u with | list cs => exact orderLists_trans each h h' | _ => simp [rank] at hu
    | _ => simp [rank] at hw
  | map as each =>
    apply chained_of_rank
    intro w u hw hu h h'
    cases w with
    | map bs => cases u with | map cs => exact orderEntries_trans each h h' | _ => simp [rank] at hu
    | _ => simp [rank] at hw
  | absent =>
    apply chained_of_rank
    intro w u hw _ h _
    cases w with
    | absent => cases h
    | _ => simp [rank] at hw
  | present a ih =>
    apply chained_of_rank
    intro w u hw hu h h'
    cases w with
    | present b => cases u with | present c => exact ih b c h h' | _ => simp [rank] at hu
    | _ => simp [rank] at hw
  | case l a ih =>
    apply chained_of_rank
    intro w u hw hu h h'
    cases w with
    | case m b =>
      cases u with
      | case n c =>
        refine then_trans Std.TransCmp.lt_trans ?_ ?_ (ih b c) h h'
        · intro eq
          rw [Std.LawfulEqOrd.eq_of_compare eq]
        · intro eq
          rw [Std.LawfulEqOrd.eq_of_compare eq]
      | _ => simp [rank] at hu
    | _ => simp [rank] at hw

/-- The order chains. -/
theorem order_trans {v w u : Value} (h : v.order w = .lt) (h' : w.order u = .lt) :
    v.order u = .lt :=
  chained v w u h h'

end ByteSchema.Value
