import ByteSchema.Proofs.StepInversion
import ByteSchema.Proofs.Text.Ascii
import ByteSchema.Text.Base58
import Mathlib.Data.List.TakeWhile
import Mathlib.Data.Nat.Digits.Lemmas

/-!
# Base 58 texts and their bytes

Both directions change the base of a numeral and keep its leading zeros.  Changing the base there
and back gives the numeral again, whichever of the two bases comes first, so one lemma serves for
reading what was written and for writing what was read.
-/
namespace ByteSchema.Base58

open Utf8

variable {base : Nat} {ds : List Nat}

private theorem digitsBefore_eq (large : 1 < base) {fuel n : Nat} (enough : n ≤ fuel)
    (acc : List Nat) : digitsBefore base fuel n acc = (Nat.digits base n).reverse ++ acc := by
  induction fuel generalizing n acc with
  | zero =>
    cases Nat.le_zero.mp enough
    simp [digitsBefore]
  | succ fuel ih =>
    rw [digitsBefore]
    by_cases none : n = 0
    · simp [none]
    · have smaller : n / base ≤ fuel := by
        have := Nat.div_lt_self (Nat.pos_of_ne_zero none) large
        omega
      rw [if_neg none, ih smaller, Nat.digits_def' large (Nat.pos_of_ne_zero none)]
      simp

private theorem digits_eq (large : 1 < base) (n : Nat) :
    digits base n = (Nat.digits base n).reverse := by
  rw [digits, digitsBefore_eq large (Nat.le_refl n), List.append_nil]

private theorem number_eq (base : Nat) (ds : List Nat) :
    number base ds = Nat.ofDigits base ds.reverse := by
  induction ds using List.reverseRecOn with
  | nil => rfl
  | append_singleton ds d ih =>
    rw [number] at ih ⊢
    rw [List.foldl_append, ih, List.reverse_append, List.reverse_singleton, List.singleton_append,
      Nat.ofDigits_cons, Nat.add_comm]
    rfl

private theorem number_digits (large : 1 < base) (n : Nat) : number base (digits base n) = n := by
  rw [number_eq, digits_eq large, List.reverse_reverse, Nat.ofDigits_digits]

private theorem digits_lt (large : 1 < base) {n d : Nat} (h : d ∈ digits base n) : d < base := by
  rw [digits_eq large, List.mem_reverse] at h
  exact Nat.digits_lt_base large h

private theorem zeros_append (ds : List Nat) :
    List.replicate (ds.takeWhile (· == 0)).length 0 ++ ds.dropWhile (· == 0) = ds := by
  have zeros : ds.takeWhile (· == 0) = List.replicate (ds.takeWhile (· == 0)).length 0 :=
    List.eq_replicate_of_mem fun d hd => by simpa using List.mem_takeWhile_imp hd
  rw [← zeros, List.takeWhile_append_dropWhile]

private theorem number_zeros_append (k : Nat) (ds : List Nat) :
    number base (List.replicate k 0 ++ ds) = number base ds := by
  rw [number_eq, number_eq, List.reverse_append, List.reverse_replicate,
    Nat.ofDigits_append_replicate_zero]

/-- The digits of a numeral's number are those behind its leading zeros. -/
private theorem digits_number (large : 1 < base) (small : ∀ d ∈ ds, d < base) :
    digits base (number base ds) = ds.dropWhile (· == 0) := by
  have value : number base ds = number base (ds.dropWhile (· == 0)) := by
    conv_lhs => rw [← zeros_append ds]
    rw [number_zeros_append]
  rw [value, digits_eq large, number_eq, Nat.digits_ofDigits base large, List.reverse_reverse]
  · intro d hd
    exact small d ((List.dropWhile_suffix _).subset (List.mem_reverse.mp hd))
  · intro some
    have front : ds.dropWhile (· == 0) ≠ [] := fun empty => some (by rw [empty]; rfl)
    rw [List.getLast_reverse]
    have first := List.head_dropWhile_not (· == 0) front
    simpa using first

/-- The numeral in another base, behind as many zeros. -/
def rebase (base base' : Nat) (ds : List Nat) : List Nat :=
  List.replicate (ds.takeWhile (· == 0)).length 0 ++ digits base' (number base ds)

theorem rebase_lt {base' : Nat} (large : 1 < base') : ∀ d ∈ rebase base base' ds, d < base' := by
  intro d hd
  rw [rebase, List.mem_append, List.mem_replicate] at hd
  rcases hd with ⟨_, rfl⟩ | hd
  · omega
  · exact digits_lt large hd

theorem rebase_rebase {base' : Nat} (large : 1 < base) (large' : 1 < base')
    (small : ∀ d ∈ ds, d < base) : rebase base' base (rebase base base' ds) = ds := by
  have plain := digits_number large' fun d => digits_lt (n := number base ds) large'
  rw [number_digits large'] at plain
  have none : (digits base' (number base ds)).takeWhile (· == 0) = [] := by
    have cut := List.takeWhile_append_dropWhile (p := (· == 0)) (l := digits base' (number base ds))
    rw [← plain] at cut
    simpa using cut
  have zeros : (rebase base base' ds).takeWhile (· == 0) =
      List.replicate (ds.takeWhile (· == 0)).length 0 := by
    rw [rebase, List.takeWhile_append_of_pos (by simp), none, List.append_nil]
  have value : number base' (rebase base base' ds) = number base ds := by
    rw [rebase, number_zeros_append, number_digits large']
  rw [rebase, zeros, value, digits_number large small, List.length_replicate, zeros_append]

private theorem letters_distinct : alphabet.Nodup := by
  decide

private theorem letters_ascii : ∀ c ∈ alphabet, c.toNat < 128 := by
  have all : alphabet.all (fun c => c.toNat < 128) = true := by decide
  simpa using all

/-- The byte of a digit. -/
def digitByte (v : Nat) : UInt8 := asciiByte (alphabet.getD v '1')

private theorem letter_lt (v : Nat) : (alphabet.getD v '1').toNat < 128 :=
  getD_lt letters_ascii (by decide) v

private theorem valuesAfter_eq_ok_iff {done vs : List Nat} {index : Nat} {text : List UInt8} :
    valuesAfter done index text = .ok vs ↔
      ∃ more, vs = done.reverse ++ more ∧ (∀ v ∈ more, v < 58) ∧ more.map digitByte = text := by
  induction text generalizing done index with
  | nil =>
    rw [valuesAfter, Except.ok.injEq]
    constructor
    · rintro rfl
      exact ⟨[], by simp, by simp, rfl⟩
    · rintro ⟨more, rfl, _, htext⟩
      rw [List.map_eq_nil_iff.mp htext, List.append_nil]
  | cons b rest ih =>
    have found (v : Nat) : alphabet.idxOf? (Char.ofNat b.toNat) = some v ↔
        v < 58 ∧ digitByte v = b :=
      idxOf?_asciiChar_eq_some_iff letters_distinct letters_ascii
    rw [valuesAfter]
    by_cases high : 128 ≤ b.toNat
    · rw [if_pos high]
      simp only [reduceCtorEq, false_iff]
      rintro ⟨more, _, _, htext⟩
      cases more with
      | nil => cases htext
      | cons v more =>
        have head : digitByte v = b := (List.cons.inj htext).1
        rw [← head, digitByte, toNat_asciiByte (letter_lt v)] at high
        have := letter_lt v
        omega
    · rw [if_neg high]
      cases hfound : alphabet.idxOf? (Char.ofNat b.toNat) with
      | none =>
        simp only [reduceCtorEq, false_iff]
        rintro ⟨more, _, small, htext⟩
        cases more with
        | nil => cases htext
        | cons v more =>
          have head : digitByte v = b := (List.cons.inj htext).1
          have again := (found v).mpr ⟨small v List.mem_cons_self, head⟩
          cases hfound.symm.trans again
      | some v =>
        obtain ⟨small, rfl⟩ := (found v).mp hfound
        simp only [ih]
        constructor
        · rintro ⟨more, rfl, smalls, rfl⟩
          exact ⟨v :: more, by simp, by simpa using ⟨small, smalls⟩, rfl⟩
        · rintro ⟨more, rfl, smalls, htext⟩
          cases more with
          | nil => cases htext
          | cons w more =>
            obtain ⟨head, tail⟩ := List.cons.inj htext
            have same := (found w).mpr ⟨smalls w List.mem_cons_self, head⟩
            cases hfound.symm.trans same
            exact ⟨more, by simp, fun u hu => smalls u (by simp [hu]), tail⟩

private theorem encode_eq (bs : List UInt8) :
    encode bs = (rebase 256 58 (bs.map (·.toNat))).map (alphabet.getD · '1') := by
  have zeros : ((bs.map (·.toNat)).takeWhile (· == 0)).length =
      (bs.takeWhile (· == 0)).length := by
    rw [List.takeWhile_map, List.length_map]
    congr 2
    funext b
    simp [← UInt8.toNat_inj]
  rw [encode, rebase, zeros, List.map_append, List.map_replicate]
  rfl

private theorem decode_eq (text : List UInt8) :
    decode text = (do
      let values ← valuesAfter [] 0 text
      return (rebase 58 256 values).map UInt8.ofNat) := by
  rw [decode]
  congr 1
  funext values
  rw [rebase, List.map_append, List.map_replicate]
  rfl

theorem decode_eq_ok_iff {text bs : List UInt8} :
    decode text = .ok bs ↔ (encode bs).map asciiByte = text := by
  have bytes : ∀ d ∈ bs.map (·.toNat), d < 256 := by
    intro d hd
    obtain ⟨b, _, rfl⟩ := List.mem_map.mp hd
    exact b.toNat_lt
  simp only [decode_eq, Outcome.bind_eq_ok, Outcome.pure_eq_ok, valuesAfter_eq_ok_iff, encode_eq,
    List.map_map]
  constructor
  · rintro ⟨values, ⟨_, rfl, small, rfl⟩, rfl⟩
    have back : ((rebase 58 256 values).map UInt8.ofNat).map (·.toNat) = rebase 58 256 values := by
      rw [List.map_map]
      conv_rhs => rw [← List.map_id (rebase 58 256 values)]
      refine List.map_congr_left fun d hd => ?_
      exact UInt8.toNat_ofNat_of_lt (rebase_lt (by decide) d hd)
    rw [back, rebase_rebase (by decide) (by decide) small]
    rfl
  · rintro rfl
    refine ⟨_, ⟨rebase 256 58 (bs.map (·.toNat)), rfl, rebase_lt (by decide), rfl⟩, ?_⟩
    rw [List.reverse_nil, List.nil_append, rebase_rebase (by decide) (by decide) bytes,
      List.map_map]
    conv_rhs => rw [← List.map_id bs]
    exact List.map_congr_left fun b _ => UInt8.ofNat_toNat

theorem encode_lt (bs : List UInt8) : ∀ c ∈ encode bs, c.toNat < 128 := by
  intro c hc
  rw [encode_eq] at hc
  obtain ⟨v, _, rfl⟩ := List.mem_map.mp hc
  exact letter_lt v

end ByteSchema.Base58
