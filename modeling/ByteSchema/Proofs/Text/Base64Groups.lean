import ByteSchema.Proofs.StepInversion
import ByteSchema.Proofs.Text.Ascii
import ByteSchema.Text.Base64

/-!
# Base 64 texts and their bytes

A text is read exactly when it is the one that its bytes are written as.  Whole groups are plain
arithmetic.  The last group may be short; its pads are counted and its spare bits have to be zero,
and then its bytes determine it.
-/
namespace ByteSchema.Base64

open Utf8

private theorem letters_distinct : alphabet.Nodup := by
  decide

private theorem letters_ascii : ∀ c ∈ alphabet, c.toNat < 128 := by
  have all : alphabet.all (fun c => c.toNat < 128) = true := by decide
  simpa using all

/-- The byte of a symbol. -/
def symbolByte (v : Nat) : UInt8 := asciiByte (letter v)

/-- The byte that fills the last group. -/
def padByte : UInt8 := asciiByte '='

theorem symbol_eq_ok_iff {index : Nat} {b : UInt8} {v : Nat} :
    symbol index b = .ok v ↔ v < 64 ∧ symbolByte v = b := by
  have found : alphabet.idxOf? (Char.ofNat b.toNat) = some v ↔ v < 64 ∧ symbolByte v = b :=
    idxOf?_asciiChar_eq_some_iff letters_distinct letters_ascii
  rw [symbol, ← found]
  cases alphabet.idxOf? (Char.ofNat b.toNat) with
  | none => simp
  | some w => simp

theorem isPad_iff {b : UInt8} : isPad b = true ↔ b = padByte := by
  rw [isPad, decide_eq_true_iff, ← UInt8.toNat_inj]
  rfl

private theorem letter_lt (v : Nat) : (letter v).toNat < 128 :=
  getD_lt letters_ascii (by decide) v

theorem symbolByte_ne_pad {v : Nat} (h : v < 64) : symbolByte v ≠ padByte := by
  have inside : v < alphabet.length := h
  have isLetter : letter v ∈ alphabet := by
    rw [letter, List.getD_eq_getElem _ _ inside]
    exact List.getElem_mem inside
  have foreign : '=' ∉ alphabet := by decide
  intro same
  have equal : asciiChar (symbolByte v) = asciiChar padByte := congrArg asciiChar same
  rw [symbolByte, padByte, asciiChar_asciiByte (letter_lt v),
    asciiChar_asciiByte (by decide)] at equal
  exact foreign (equal ▸ isLetter)

/-- Symbols with pads behind them. -/
def spell (values : List Nat) (pads : Nat) : List UInt8 :=
  values.map symbolByte ++ List.replicate pads padByte

private theorem lastGroup_padded_eq_ok_iff {index position first pads : Nat} {text : List UInt8}
    {values vs : List Nat} (enough : 2 ≤ position) :
    lastGroup index text position values (some first) = .ok (vs, pads) ↔
      vs = values.reverse ∧ text = List.replicate text.length padByte ∧
        pads = position + text.length - first := by
  induction text generalizing position with
  | nil =>
    simp only [lastGroup, Except.ok.injEq, Prod.mk.injEq, List.length_nil, List.replicate_zero,
      true_and, Nat.add_zero]
    exact ⟨fun h => ⟨h.1.symm, h.2.symm⟩, fun h => ⟨h.1.symm, h.2.symm⟩⟩
  | cons b rest ih =>
    rw [lastGroup]
    by_cases pad : isPad b = true
    · rw [if_pos pad, if_neg (by omega)]
      have same := isPad_iff.mp pad
      subst same
      rw [Option.getD_some, ih (by omega), List.length_cons, List.replicate_succ,
        List.cons_inj_right]
      have count : position + 1 + rest.length - first = position + (rest.length + 1) - first := by
        omega
      rw [count]
    · rw [if_neg pad]
      have other : b ≠ padByte := fun same => pad (isPad_iff.mpr same)
      simp [List.replicate_succ, other]

private theorem lastGroup_eq_ok_iff {index position pads : Nat} {text : List UInt8}
    {values vs : List Nat} :
    lastGroup index text position values none = .ok (vs, pads) ↔
      ∃ more, vs = values.reverse ++ more ∧ (∀ v ∈ more, v < 64) ∧ text = spell more pads ∧
        (0 < pads → 2 ≤ position + more.length) := by
  induction text generalizing position values with
  | nil =>
    rw [lastGroup]
    simp only [Except.ok.injEq, Prod.mk.injEq]
    constructor
    · rintro ⟨rfl, rfl⟩
      exact ⟨[], by simp, by simp, rfl, by simp⟩
    · rintro ⟨more, rfl, _, htext, _⟩
      have empty := htext.symm
      simp only [spell, List.append_eq_nil_iff, List.map_eq_nil_iff,
        List.replicate_eq_nil_iff] at empty
      obtain ⟨rfl, rfl⟩ := empty
      simp
  | cons b rest ih =>
    rw [lastGroup]
    by_cases pad : isPad b = true
    · have same := isPad_iff.mp pad
      subst same
      rw [if_pos pad]
      by_cases early : position < 2
      · rw [if_pos early]
        simp only [reduceCtorEq, false_iff]
        rintro ⟨more, _, small, htext, few⟩
        cases more with
        | nil =>
          cases pads with
          | zero => cases htext
          | succ pads =>
            have := few (Nat.succ_pos pads)
            simp at this
            omega
        | cons v more =>
          have head := (List.cons.inj htext).1
          exact symbolByte_ne_pad (small v List.mem_cons_self) head.symm
      · rw [if_neg early, Option.getD_none, lastGroup_padded_eq_ok_iff (by omega)]
        constructor
        · rintro ⟨rfl, htext, rfl⟩
          have count : position + 1 + rest.length - position = rest.length + 1 := by omega
          refine ⟨[], by simp, by simp, ?_, by simp; omega⟩
          rw [count, spell, List.replicate_succ, ← htext]
          rfl
        · rintro ⟨more, rfl, small, htext, _⟩
          cases more with
          | nil =>
            cases pads with
            | zero => cases htext
            | succ pads =>
              have tail : rest = List.replicate pads padByte := (List.cons.inj htext).2
              subst tail
              refine ⟨by simp, by simp, ?_⟩
              rw [List.length_replicate]
              omega
          | cons v more =>
            have head := (List.cons.inj htext).1
            exact absurd head.symm (symbolByte_ne_pad (small v List.mem_cons_self))
    · rw [if_neg pad]
      simp only [Outcome.bind_eq_ok, symbol_eq_ok_iff, ih]
      constructor
      · rintro ⟨v, ⟨small, rfl⟩, more, rfl, smalls, rfl, few⟩
        refine ⟨v :: more, by simp, by simpa using ⟨small, smalls⟩, rfl, fun some => ?_⟩
        have := few some
        rw [List.length_cons]
        omega
      · rintro ⟨more, rfl, smalls, htext, few⟩
        cases more with
        | nil =>
          cases pads with
          | zero => cases htext
          | succ pads => exact absurd (isPad_iff.mpr (List.cons.inj htext).1) pad
        | cons v more =>
          obtain ⟨rfl, rfl⟩ := List.cons.inj htext
          have small := smalls v List.mem_cons_self
          refine ⟨v, ⟨small, rfl⟩, more, by simp, fun w hw => smalls w (by simp [hw]), rfl,
            fun some => ?_⟩
          have := few some
          rw [List.length_cons] at this
          omega

/-- The values of the symbols that at most three bytes are written as. -/
def sextets : List UInt8 → List Nat
  | [a] => [a.toNat / 4, a.toNat % 4 * 16]
  | [a, b] => [a.toNat / 4, a.toNat % 4 * 16 + b.toNat / 16, b.toNat % 16 * 4]
  | [a, b, c] =>
    [a.toNat / 4, a.toNat % 4 * 16 + b.toNat / 16, b.toNat % 16 * 4 + c.toNat / 64, c.toNat % 64]
  | _ => []

/-- The bytes of a text. -/
def spelled (bs : List UInt8) : List UInt8 := (encode bs).map asciiByte

/-- Bytes for one group of a text. -/
inductive Short : List UInt8 → Prop where
  | one (a : UInt8) : Short [a]
  | two (a b : UInt8) : Short [a, b]
  | three (a b c : UInt8) : Short [a, b, c]

private theorem spelled_short {bs : List UInt8} (h : Short bs) :
    spelled bs = spell (sextets bs) (4 - (sextets bs).length) := by
  cases h with
  | one a => rfl
  | two a b => rfl
  | three a b c => rfl

private theorem sextets_lt {bs : List UInt8} (h : Short bs) : ∀ v ∈ sextets bs, v < 64 := by
  cases h with
  | one a =>
    have := a.toNat_lt
    simp only [sextets, List.forall_mem_cons]
    refine ⟨by omega, by omega, by simp⟩
  | two a b =>
    have := a.toNat_lt
    have := b.toNat_lt
    simp only [sextets, List.forall_mem_cons]
    refine ⟨by omega, by omega, by omega, by simp⟩
  | three a b c =>
    have := a.toNat_lt
    have := b.toNat_lt
    have := c.toNat_lt
    simp only [sextets, List.forall_mem_cons]
    refine ⟨by omega, by omega, by omega, by omega, by simp⟩

private theorem byte_eq {b : UInt8} {n : Nat} (h : n = b.toNat) : UInt8.ofNat n = b := by
  rw [h, UInt8.ofNat_toNat]

private theorem toNat_byte {n : Nat} (h : n < 256) : (UInt8.ofNat n).toNat = n :=
  UInt8.toNat_ofNat_of_lt h

private theorem closing_sextets {index : Nat} {bs : List UInt8} (h : Short bs) :
    closing index (sextets bs) = .ok bs := by
  cases h with
  | one a =>
    have := a.toNat_lt
    have first : UInt8.ofNat (a.toNat / 4 * 4 + a.toNat % 4 * 16 / 16) = a := byte_eq (by omega)
    rw [sextets, closing, if_pos (by omega), first]
  | two a b =>
    have := b.toNat_lt
    have first : UInt8.ofNat (a.toNat / 4 * 4 + (a.toNat % 4 * 16 + b.toNat / 16) / 16) = a :=
      byte_eq (by omega)
    have second : UInt8.ofNat
        ((a.toNat % 4 * 16 + b.toNat / 16) % 16 * 16 + b.toNat % 16 * 4 / 4) = b :=
      byte_eq (by omega)
    rw [sextets, closing, if_pos (by omega), first, second]
  | three a b c =>
    have := b.toNat_lt
    have := c.toNat_lt
    have first : UInt8.ofNat (a.toNat / 4 * 4 + (a.toNat % 4 * 16 + b.toNat / 16) / 16) = a :=
      byte_eq (by omega)
    have second : UInt8.ofNat ((a.toNat % 4 * 16 + b.toNat / 16) % 16 * 16 +
        (b.toNat % 16 * 4 + c.toNat / 64) / 4) = b := byte_eq (by omega)
    have third : UInt8.ofNat ((b.toNat % 16 * 4 + c.toNat / 64) % 4 * 64 + c.toNat % 64) = c :=
      byte_eq (by omega)
    rw [sextets, closing, first, second, third]

private theorem sextets_of_closing {index : Nat} {values : List Nat} {bs : List UInt8}
    (h : closing index values = .ok bs) (small : ∀ v ∈ values, v < 64) :
    Short bs ∧ sextets bs = values := by
  match values with
  | [] | [_] | _ :: _ :: _ :: _ :: _ :: _ => simp [closing] at h
  | [a, b] =>
    have ha := small a (by simp)
    have hb := small b (by simp)
    by_cases spare : b % 16 = 0
    · rw [closing, if_pos spare] at h
      cases h
      refine ⟨.one _, ?_⟩
      rw [sextets, toNat_byte (by omega)]
      have first : (a * 4 + b / 16) / 4 = a := by omega
      have second : (a * 4 + b / 16) % 4 * 16 = b := by omega
      rw [first, second]
    · simp [closing, spare] at h
  | [a, b, c] =>
    have ha := small a (by simp)
    have hb := small b (by simp)
    have hc := small c (by simp)
    by_cases spare : c % 4 = 0
    · rw [closing, if_pos spare] at h
      cases h
      refine ⟨.two _ _, ?_⟩
      rw [sextets, toNat_byte (by omega), toNat_byte (by omega)]
      have first : (a * 4 + b / 16) / 4 = a := by omega
      have second : (a * 4 + b / 16) % 4 * 16 + (b % 16 * 16 + c / 4) / 16 = b := by omega
      have third : (b % 16 * 16 + c / 4) % 16 * 4 = c := by omega
      rw [first, second, third]
    · simp [closing, spare] at h
  | [a, b, c, d] =>
    have ha := small a (by simp)
    have hb := small b (by simp)
    have hc := small c (by simp)
    have hd := small d (by simp)
    rw [closing] at h
    cases h
    refine ⟨.three _ _ _, ?_⟩
    rw [sextets, toNat_byte (by omega), toNat_byte (by omega), toNat_byte (by omega)]
    have first : (a * 4 + b / 16) / 4 = a := by omega
    have second : (a * 4 + b / 16) % 4 * 16 + (b % 16 * 16 + c / 4) / 16 = b := by omega
    have third : (b % 16 * 16 + c / 4) % 16 * 4 + (c % 4 * 64 + d) / 64 = c := by omega
    have fourth : (c % 4 * 64 + d) % 64 = d := by omega
    rw [first, second, third, fourth]

private theorem two_le_sextets {bs : List UInt8} (h : Short bs) :
    2 ≤ (sextets bs).length ∧ (sextets bs).length ≤ 4 := by
  cases h with
  | one a => exact ⟨by simp [sextets], by simp [sextets]⟩
  | two a b => exact ⟨by simp [sextets], by simp [sextets]⟩
  | three a b c => exact ⟨by simp [sextets], by simp [sextets]⟩

private theorem finish_steps {done last out : List UInt8} {index : Nat} :
    finish done index last = .ok out ↔
      ∃ values pads bs, lastGroup index last 0 [] none = .ok (values, pads) ∧
        2 ≤ values.length ∧ (values.length + pads) % 4 = 0 ∧ closing index values = .ok bs ∧
        out = done.reverse ++ bs := by
  rw [finish, Outcome.bind_eq_ok]
  constructor
  · rintro ⟨⟨values, pads⟩, hgroup, h⟩
    simp only at h
    by_cases few : values.length < 2
    · rw [if_pos few] at h
      obtain ⟨_, h, _⟩ := Outcome.bind_eq_ok.mp h
      cases h
    · rw [if_neg few] at h
      by_cases padding : (values.length + pads) % 4 ≠ 0
      · rw [if_pos padding] at h
        obtain ⟨_, h, _⟩ := Outcome.bind_eq_ok.mp h
        cases h
      · rw [if_neg padding] at h
        obtain ⟨bs, hclosing, h⟩ := Outcome.bind_eq_ok.mp h
        cases h
        exact ⟨values, pads, bs, hgroup, by omega, by omega, hclosing, rfl⟩
  · rintro ⟨values, pads, bs, hgroup, enough, padding, hclosing, rfl⟩
    refine ⟨(values, pads), hgroup, ?_⟩
    simp only
    rw [if_neg (by omega), if_neg (by omega)]
    exact Outcome.bind_eq_ok.mpr ⟨bs, hclosing, rfl⟩

/-- The last group is read exactly when some bytes are written as it. -/
private theorem finish_eq_ok_iff {done last out : List UInt8} {index : Nat}
    (short : last.length ≤ 4) :
    finish done index last = .ok out ↔
      ∃ bs, Short bs ∧ out = done.reverse ++ bs ∧ spelled bs = last := by
  rw [finish_steps]
  constructor
  · rintro ⟨values, pads, bs, hgroup, enough, padding, hclosing, rfl⟩
    obtain ⟨more, hvalues, small, rfl, -⟩ := lastGroup_eq_ok_iff.mp hgroup
    rw [List.reverse_nil, List.nil_append] at hvalues
    subst hvalues
    obtain ⟨hshort, rfl⟩ := sextets_of_closing hclosing small
    rw [spell, List.length_append, List.length_map, List.length_replicate] at short
    have pads_eq : pads = 4 - (sextets bs).length := by omega
    exact ⟨bs, hshort, rfl, by rw [spelled_short hshort, pads_eq]⟩
  · rintro ⟨bs, hshort, rfl, rfl⟩
    obtain ⟨enough, most⟩ := two_le_sextets hshort
    refine ⟨sextets bs, 4 - (sextets bs).length, bs, ?_, enough, by omega,
      closing_sextets hshort, rfl⟩
    refine lastGroup_eq_ok_iff.mpr
      ⟨sextets bs, by simp, sextets_lt hshort, spelled_short hshort, ?_⟩
    omega

private theorem spelled_eq_nil_iff {bs : List UInt8} : spelled bs = [] ↔ bs = [] := by
  match bs with
  | [] | [_] | [_, _] | _ :: _ :: _ :: _ => simp [spelled, encode]

/-- A text of more than one group starts with a whole one. -/
private theorem spelled_eq_cons_iff {bs rest : List UInt8} {a b c d : UInt8} (more : rest ≠ []) :
    spelled bs = a :: b :: c :: d :: rest ↔
      ∃ x y z tail, bs = x :: y :: z :: tail ∧ spelled [x, y, z] = [a, b, c, d] ∧
        spelled tail = rest := by
  constructor
  · intro h
    match bs with
    | [] => cases h
    | [_] | [_, _] =>
      simp only [spelled, encode, List.map_cons, List.map_nil, List.cons.injEq] at h
      exact absurd h.2.2.2.2.symm more
    | x :: y :: z :: tail =>
      simp only [spelled, encode, List.map_cons, List.cons.injEq] at h
      obtain ⟨rfl, rfl, rfl, rfl, htail⟩ := h
      exact ⟨x, y, z, tail, rfl, rfl, htail⟩
  · rintro ⟨x, y, z, tail, rfl, hgroup, rfl⟩
    simp only [spelled, encode, List.map_cons, List.map_nil, List.cons.injEq, and_true] at hgroup ⊢
    exact hgroup

private theorem short_iff {bs : List UInt8} : Short bs ↔ bs ≠ [] ∧ (spelled bs).length ≤ 4 := by
  constructor
  · intro h
    cases h with
    | one a => simp [spelled, encode]
    | two a b => simp [spelled, encode]
    | three a b c => simp [spelled, encode]
  · rintro ⟨some, few⟩
    match bs with
    | [] => exact absurd rfl some
    | [a] => exact .one a
    | [a, b] => exact .two a b
    | [a, b, c] => exact .three a b c
    | a :: b :: c :: d :: rest =>
      have longer : 0 < (spelled (d :: rest)).length := by
        rw [List.length_pos_iff, ne_eq, spelled_eq_nil_iff]
        exact List.cons_ne_nil d rest
      simp only [spelled, encode, List.map_cons, List.length_cons] at few longer
      omega

private theorem finish_eq_ok_iff_ne_nil {done last out : List UInt8} {index : Nat}
    (short : last.length ≤ 4) :
    finish done index last = .ok out ↔
      ∃ bs, bs ≠ [] ∧ out = done.reverse ++ bs ∧ spelled bs = last := by
  rw [finish_eq_ok_iff short]
  constructor
  · rintro ⟨bs, hshort, rfl, rfl⟩
    exact ⟨bs, (short_iff.mp hshort).1, rfl, rfl⟩
  · rintro ⟨bs, some, rfl, rfl⟩
    exact ⟨bs, short_iff.mpr ⟨some, short⟩, rfl, rfl⟩

/-- The symbols of a whole group, and the three bytes they are put together to. -/
private theorem group_eq_ok_iff {index : Nat} {a b c d x y z : UInt8} :
    (∃ i j k l, symbol index a = .ok i ∧ symbol (index + 1) b = .ok j ∧
      symbol (index + 2) c = .ok k ∧ symbol (index + 3) d = .ok l ∧
      x = UInt8.ofNat (i * 4 + j / 16) ∧ y = UInt8.ofNat (j % 16 * 16 + k / 4) ∧
      z = UInt8.ofNat (k % 4 * 64 + l)) ↔ spelled [x, y, z] = [a, b, c, d] := by
  simp only [symbol_eq_ok_iff]
  constructor
  · rintro ⟨i, j, k, l, ⟨hi, rfl⟩, ⟨hj, rfl⟩, ⟨hk, rfl⟩, ⟨hl, rfl⟩, rfl, rfl, rfl⟩
    have group : ∀ v ∈ [i, j, k, l], v < 64 := by simp [hi, hj, hk, hl]
    have back := (sextets_of_closing (rfl : closing index [i, j, k, l] = .ok _) group).2
    rw [spelled_short (.three _ _ _), back]
    rfl
  · intro h
    have small := sextets_lt (.three x y z)
    have back := @closing_sextets index _ (.three x y z)
    rw [spelled_short (.three x y z)] at h
    simp only [sextets, spell, List.map_cons, List.map_nil, List.cons_append, List.cons.injEq] at h
    simp only [sextets, List.forall_mem_cons] at small
    simp only [sextets, closing, Except.ok.injEq, List.cons.injEq] at back
    obtain ⟨ha, hb, hc, hd, -⟩ := h
    obtain ⟨hi, hj, hk, hl, -⟩ := small
    obtain ⟨hx, hy, hz, -⟩ := back
    exact ⟨_, _, _, _, ⟨hi, ha⟩, ⟨hj, hb⟩, ⟨hk, hc⟩, ⟨hl, hd⟩, hx.symm, hy.symm, hz.symm⟩

private theorem decodeAfter_eq_ok_iff {done text out : List UInt8} {index : Nat} :
    decodeAfter done index text = .ok out ↔
      ∃ bs, bs ≠ [] ∧ out = done.reverse ++ bs ∧ spelled bs = text := by
  fun_induction decodeAfter done index text with
  | case1 done index a b c d rest last =>
    rw [List.isEmpty_iff] at last
    subst last
    exact finish_eq_ok_iff_ne_nil (Nat.le_refl 4)
  | case2 done index a b c d rest more ih =>
    rw [List.isEmpty_iff] at more
    simp only [Outcome.bind_eq_ok, ih, spelled_eq_cons_iff more]
    constructor
    · rintro ⟨i, hi, j, hj, k, hk, l, hl, tail, some, rfl, rfl⟩
      refine ⟨UInt8.ofNat (i * 4 + j / 16) :: UInt8.ofNat (j % 16 * 16 + k / 4) ::
        UInt8.ofNat (k % 4 * 64 + l) :: tail, by simp, by simp, _, _, _, tail, rfl, ?_, rfl⟩
      exact group_eq_ok_iff.mp ⟨i, j, k, l, hi, hj, hk, hl, rfl, rfl, rfl⟩
    · rintro ⟨_, _, rfl, x, y, z, tail, rfl, hgroup, htail⟩
      obtain ⟨i, j, k, l, hi, hj, hk, hl, rfl, rfl, rfl⟩ := group_eq_ok_iff.mpr hgroup
      refine ⟨i, hi, j, hj, k, hk, l, hl, tail, ?_, by simp, htail⟩
      rintro rfl
      exact more htail.symm
  | case3 done index last short =>
    refine finish_eq_ok_iff_ne_nil ?_
    match last with
    | [] | [_] | [_, _] | [_, _, _] => simp
    | a :: b :: c :: d :: rest => exact absurd rfl (short a b c d rest)

private theorem length_spelled (bs : List UInt8) : (spelled bs).length % 4 = 0 := by
  induction bs using encode.induct with
  | case1 a b c rest ih =>
    simp only [spelled, encode, List.map_cons, List.length_cons] at ih ⊢
    omega
  | case2 a b => simp [spelled, encode]
  | case3 a => simp [spelled, encode]
  | case4 => rfl

theorem decode_eq_ok_iff {text bs : List UInt8} :
    decode text = .ok bs ↔ (encode bs).map asciiByte = text := by
  change _ ↔ spelled bs = text
  have body : decodeAfter [] 0 text = .ok bs ↔ bs ≠ [] ∧ spelled bs = text := by
    rw [decodeAfter_eq_ok_iff]
    constructor
    · rintro ⟨bs', some, rfl, h⟩
      exact ⟨some, h⟩
    · rintro ⟨some, h⟩
      exact ⟨bs, some, rfl, h⟩
  rw [decode]
  cases hlast : text.getLast? with
  | none =>
    rw [List.getLast?_eq_none_iff] at hlast
    subst hlast
    rw [spelled_eq_nil_iff]
    simp only [Outcome.pure_eq_ok]
    exact eq_comm
  | some b =>
    have some : text ≠ [] := by
      rintro rfl
      cases hlast
    simp only
    by_cases stray : text.length % 4 = 1 ∧ ¬ isPad b = true
    · rw [if_pos stray, Outcome.bind_eq_ok]
      constructor
      · rintro ⟨_, _, h⟩
        exact (body.mp h).2
      · rintro rfl
        have := length_spelled bs
        omega
    · rw [if_neg stray, body]
      constructor
      · rintro ⟨_, h⟩
        exact h
      · rintro rfl
        exact ⟨fun empty => some (spelled_eq_nil_iff.mpr empty), rfl⟩

theorem encode_lt (bs : List UInt8) : ∀ c ∈ encode bs, c.toNat < 128 := by
  induction bs using encode.induct with
  | case1 a b c rest ih => simpa [encode, letter_lt] using ih
  | case2 a b => simp [encode, letter_lt]
  | case3 a => simp [encode, letter_lt]
  | case4 => simp [encode]

end ByteSchema.Base64
