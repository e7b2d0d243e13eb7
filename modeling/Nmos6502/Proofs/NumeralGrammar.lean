import Mathlib.Data.Nat.Digits.Defs
import Nmos6502.Proofs.OperandReading

/-!
# The grammar of numerals

A numeral is the digits of a number behind the sign of their radix: `Writes` is the grammar, in
which a number may be of any size. Main statement: `numeral_exact`, by which the texts with a value
are the numerals of the numbers that fit in a word.
-/

set_option autoImplicit false

namespace Nmos6502.Numeral

inductive Radix where
  | decimal
  | hexadecimal
  | binary

def Radix.base : Radix → Nat
  | decimal => 10
  | hexadecimal => 16
  | binary => 2

def Radix.sign : Radix → List Char
  | decimal => []
  | hexadecimal => ['$']
  | binary => ['%']

def capitalDigits : List Char :=
  ['0', '1', '2', '3', '4', '5', '6', '7', '8', '9', 'A', 'B', 'C', 'D', 'E', 'F']

def smallDigits : List Char :=
  ['0', '1', '2', '3', '4', '5', '6', '7', '8', '9', 'a', 'b', 'c', 'd', 'e', 'f']

/-- A character is the digit for a value, in either letter case. -/
def StandsFor (base : Nat) (c : Char) (value : Nat) : Prop :=
  value < base ∧ (capitalDigits[value]? = some c ∨ smallDigits[value]? = some c)

instance (base : Nat) (c : Char) (value : Nat) : Decidable (StandsFor base c value) :=
  inferInstanceAs (Decidable (_ ∧ _))

def IsDigit (base : Nat) (c : Char) : Prop := ∃ value, StandsFor base c value

instance (base : Nat) (c : Char) : Decidable (IsDigit base c) :=
  decidable_of_iff (∃ value < base, StandsFor base c value)
    (exists_congr fun _ => and_iff_right_of_imp And.left)

/-- Digits name a number of any size: a digit counts by its place, and the last one as it is. -/
def Names (base : Nat) (text : List Char) (number : Nat) : Prop :=
  ∃ values, List.Forall₂ (StandsFor base) text values ∧ number = Nat.ofDigits base values.reverse

/-- A text is a numeral of a number of any size. -/
def Writes (text : List Char) (number : Nat) : Prop :=
  ∃ (radix : Radix) (figures : List Char),
    text = radix.sign ++ figures ∧ figures ≠ [] ∧ Names radix.base figures number

/-! ### One digit -/

theorem digitValue?_eq_some_iff {c : Char} {value : Nat} :
    digitValue? c = some value ↔ capitalDigits[value]? = some c ∨ smallDigits[value]? = some c := by
  constructor
  · intro h
    have all : ∀ code < 103, ∀ value ∈ digitValue? (Char.ofNat code),
        capitalDigits[value]? = some (Char.ofNat code) ∨
          smallDigits[value]? = some (Char.ofNat code) := by
      decide
    have hc := all c.toNat (lt_of_digitValue? (by rw [h]; rfl)) value
    rw [Char.ofNat_toNat] at hc
    exact hc h
  · have all : ∀ value < 16, capitalDigits[value]?.all (digitValue? · = some value) ∧
        smallDigits[value]?.all (digitValue? · = some value) := by
      decide
    rintro (h | h)
    · have hc := (all value (List.getElem?_eq_some_iff.mp h).1).1
      rw [h] at hc
      exact of_decide_eq_true hc
    · have hc := (all value (List.getElem?_eq_some_iff.mp h).1).2
      rw [h] at hc
      exact of_decide_eq_true hc

theorem standsFor_iff {base value : Nat} {c : Char} :
    StandsFor base c value ↔ value < base ∧ digitValue? c = some value := by
  rw [StandsFor, digitValue?_eq_some_iff]

theorem append?_of_standsFor {base number value : Nat} {c : Char} (h : StandsFor base c value) :
    append? base number c =
      if number * base + value < 65536 then some (number * base + value) else none := by
  obtain ⟨hbase, hvalue⟩ := standsFor_iff.mp h
  simp [append?, hvalue, hbase]

theorem isDigit_of_append? {base number next : Nat} {c : Char}
    (h : append? base number c = some next) : IsDigit base c := by
  obtain ⟨value, hvalue⟩ := Option.isSome_iff_exists.mp (digitValue?_of_append? h)
  refine ⟨value, standsFor_iff.mpr ⟨?_, hvalue⟩⟩
  by_contra hbase
  simp [append?, hvalue, hbase] at h

/-! ### Digits in a row -/

def extend (base number : Nat) (values : List Nat) : Nat :=
  values.foldl (fun number value => number * base + value) number

theorem extend_cons (base number value : Nat) (values : List Nat) :
    extend base number (value :: values) = extend base (number * base + value) values := rfl

theorem ofDigits_reverse (base : Nat) (values : List Nat) :
    Nat.ofDigits base values.reverse = extend base 0 values := by
  rw [Nat.ofDigits_eq_foldr, List.foldr_reverse, extend]
  simp only [Nat.cast_id, Nat.add_comm, Nat.mul_comm]

theorem le_extend {base : Nat} {text : List Char} {values : List Nat}
    (h : List.Forall₂ (StandsFor base) text values) (number : Nat) :
    number ≤ extend base number values := by
  induction h generalizing number with
  | nil => exact Nat.le_refl _
  | @cons c value text values hdigit _ ih =>
    have hbase : 0 < base := Nat.zero_lt_of_lt hdigit.1
    calc number ≤ number * base + value := Nat.le_add_right_of_le (Nat.le_mul_of_pos_right _ hbase)
      _ ≤ extend base (number * base + value) values := ih _

/-- The check after each digit refuses what is too large at the end: no number gets smaller. -/
theorem foldlM_append? {base : Nat} {text : List Char} {values : List Nat}
    (h : List.Forall₂ (StandsFor base) text values) {number : Nat} (hnumber : number < 65536) :
    text.foldlM (append? base) number =
      if extend base number values < 65536 then some (extend base number values) else none := by
  induction h generalizing number with
  | nil => exact (if_pos hnumber).symm
  | @cons c value text values hdigit hrest ih =>
    rw [List.foldlM_cons, append?_of_standsFor hdigit, extend_cons]
    by_cases hnext : number * base + value < 65536
    · rw [if_pos hnext]
      exact ih hnext
    · have hgrows := le_extend hrest (number * base + value)
      rw [if_neg hnext]
      exact (if_neg (by omega)).symm

theorem forall₂_standsFor_of_foldlM {base number last : Nat} {text : List Char}
    (h : text.foldlM (append? base) number = some last) :
    ∃ values, List.Forall₂ (StandsFor base) text values := by
  induction text generalizing number with
  | nil => exact ⟨[], .nil⟩
  | cons c text ih =>
    rw [List.foldlM_cons, Option.bind_eq_bind, Option.bind_eq_some_iff] at h
    obtain ⟨next, hnext, hrest⟩ := h
    obtain ⟨value, hvalue⟩ := isDigit_of_append? hnext
    obtain ⟨values, hvalues⟩ := ih hrest
    exact ⟨value :: values, .cons hvalue hvalues⟩

theorem ofDigits?_of_names {base number : Nat} {text : List Char} (hsome : text ≠ [])
    (h : Names base text number) :
    ofDigits? base text = if number < 65536 then some (UInt16.ofNat number) else none := by
  obtain ⟨values, hvalues, rfl⟩ := h
  have hempty : text.isEmpty = false := List.isEmpty_eq_false_iff.mpr hsome
  rw [ofDigits?, hempty, foldlM_append? hvalues (by decide), ofDigits_reverse]
  exact apply_ite (Option.map UInt16.ofNat) _ _ _

theorem names_of_ofDigits? {base : Nat} {text : List Char} {word : UInt16}
    (h : ofDigits? base text = some word) : text ≠ [] ∧ Names base text word.toNat := by
  have hsome : text ≠ [] := by
    rintro rfl
    cases h
  have hempty : text.isEmpty = false := List.isEmpty_eq_false_iff.mpr hsome
  obtain ⟨last, hlast, -⟩ : ∃ last, text.foldlM (append? base) 0 = some last ∧ _ := by
    rw [ofDigits?, hempty] at h
    exact Option.map_eq_some_iff.mp h
  obtain ⟨values, hvalues⟩ := forall₂_standsFor_of_foldlM hlast
  have hnames : Names base text (Nat.ofDigits base values.reverse) := ⟨values, hvalues, rfl⟩
  rw [ofDigits?_of_names hsome hnames] at h
  split at h
  · rename_i hfits
    cases h
    rw [UInt16.toNat_ofNat_of_lt' hfits]
    exact ⟨hsome, hnames⟩
  · cases h

theorem names_zeros {base number : Nat} {text : List Char} (hbase : 0 < base) (zeros : Nat)
    (h : Names base text number) : Names base (List.replicate zeros '0' ++ text) number := by
  induction zeros with
  | zero => exact h
  | succ zeros ih =>
    obtain ⟨values, hvalues, hnumber⟩ := ih
    refine ⟨0 :: values, .cons ⟨hbase, .inl rfl⟩ hvalues, ?_⟩
    rw [hnumber, ofDigits_reverse, ofDigits_reverse, extend_cons, Nat.zero_mul, Nat.add_zero]

/-! ### The sign in front of them -/

theorem exists_radix_of_value? {text : List Char} {word : UInt16} (h : value? text = some word) :
    ∃ (radix : Radix) (figures : List Char),
      text = radix.sign ++ figures ∧ ofDigits? radix.base figures = some word := by
  unfold value? at h
  split at h
  · exact ⟨.hexadecimal, _, rfl, h⟩
  · exact ⟨.binary, _, rfl, h⟩
  · exact ⟨.decimal, _, rfl, h⟩

/-- Without a sign the digits are decimal, unless they begin with what is a sign itself. -/
theorem value?_sign_append {radix : Radix} {figures : List Char}
    (h : radix.sign = [] → ∀ c ∈ figures.head?, c ≠ '$' ∧ c ≠ '%') :
    value? (radix.sign ++ figures) = ofDigits? radix.base figures := by
  cases radix with
  | hexadecimal => rfl
  | binary => rfl
  | decimal =>
    change value? figures = ofDigits? 10 figures
    unfold value?
    split
    · exact absurd rfl (h rfl '$' rfl).1
    · exact absurd rfl (h rfl '%' rfl).2
    · rfl

theorem IsDigit.ne_sign {base : Nat} {c : Char} (h : IsDigit base c) : c ≠ '$' ∧ c ≠ '%' := by
  obtain ⟨value, hvalue⟩ := h
  have hdigit := (standsFor_iff.mp hvalue).2
  constructor <;> rintro rfl <;> cases hdigit

theorem Names.isDigit {base number : Nat} {figures : List Char}
    (h : Names base figures number) : ∀ c ∈ figures, IsDigit base c := by
  obtain ⟨values, hvalues, -⟩ := h
  intro c hc
  induction hvalues with
  | nil => cases hc
  | cons hdigit _ ih =>
    rcases List.mem_cons.mp hc with rfl | hrest
    · exact ⟨_, hdigit⟩
    · exact ih hrest

theorem value?_of_names {radix : Radix} {figures : List Char} {number : Nat}
    (hsome : figures ≠ []) (h : Names radix.base figures number) :
    value? (radix.sign ++ figures) =
      if number < 65536 then some (UInt16.ofNat number) else none := by
  rw [value?_sign_append, ofDigits?_of_names hsome h]
  intro _ c hc
  exact (h.isDigit c (List.mem_of_mem_head? hc)).ne_sign

theorem value?_of_misfit {radix : Radix} {before after : List Char} {c : Char}
    (hbefore : ∀ d ∈ before, IsDigit radix.base d) (hc : ¬ IsDigit radix.base c)
    (hfirst : radix.sign ++ before = [] → c ≠ '$' ∧ c ≠ '%') :
    value? (radix.sign ++ (before ++ c :: after)) = none := by
  rw [value?_sign_append]
  · refine Option.eq_none_iff_forall_ne_some.mpr fun word hword => ?_
    exact hc ((names_of_ofDigits? hword).2.isDigit c
      (List.mem_append_right _ List.mem_cons_self))
  · intro hsign
    cases before with
    | nil =>
      rintro _ ⟨⟩
      exact hfirst (by rw [hsign]; rfl)
    | cons d before =>
      rintro _ ⟨⟩
      exact (hbefore d List.mem_cons_self).ne_sign

theorem value?_eq_some_iff {text : List Char} {word : UInt16} :
    value? text = some word ↔ Writes text word.toNat := by
  constructor
  · intro h
    obtain ⟨radix, figures, htext, hfigures⟩ := exists_radix_of_value? h
    exact ⟨radix, figures, htext, names_of_ofDigits? hfigures⟩
  · rintro ⟨radix, figures, rfl, hsome, hnames⟩
    rw [value?_of_names hsome hnames, if_pos word.toNat_lt, UInt16.ofNat_toNat]

theorem value?_eq_none_iff {text : List Char} :
    value? text = none ↔ ∀ number, Writes text number → 65535 < number := by
  constructor
  · intro h number hwrites
    by_contra hsmall
    have hfits : number < 65536 := by omega
    have hword : (UInt16.ofNat number).toNat = number := UInt16.toNat_ofNat_of_lt' hfits
    rw [← hword, ← value?_eq_some_iff, h] at hwrites
    cases hwrites
  · intro h
    refine Option.eq_none_iff_forall_ne_some.mpr fun word hword => ?_
    have hlarge := h word.toNat (value?_eq_some_iff.mp hword)
    have hfits : word.toNat < 65536 := word.toNat_lt
    omega

/-- A text has a word for its value if and only if it is a numeral of that number, and has none if
and only if it is no numeral or one of a number that is too large. Zeros in front of the digits
change nothing, whether the number fits or not, and a character that is no digit of the radix leaves
no value, wherever it stands. -/
theorem numeral_exact :
    (∀ (text : List Char) (word : UInt16), value? text = some word ↔ Writes text word.toNat) ∧
    (∀ text : List Char, value? text = none ↔ ∀ number, Writes text number → 65535 < number) ∧
    (∀ (radix : Radix) (figures : List Char) (number zeros : Nat),
      figures ≠ [] → Names radix.base figures number →
        value? (radix.sign ++ (List.replicate zeros '0' ++ figures)) =
          if number ≤ 65535 then some (UInt16.ofNat number) else none) ∧
    ∀ (radix : Radix) (before : List Char) (c : Char) (after : List Char),
      (∀ d ∈ before, IsDigit radix.base d) → ¬ IsDigit radix.base c →
      (radix.sign ++ before = [] → c ≠ '$' ∧ c ≠ '%') →
        value? (radix.sign ++ (before ++ c :: after)) = none := by
  refine ⟨fun _ _ => value?_eq_some_iff, fun _ => value?_eq_none_iff, ?_,
    fun _ _ _ _ => value?_of_misfit⟩
  intro radix figures number zeros hsome hnames
  have hbase : 0 < radix.base := by cases radix <;> decide
  have hzeros := names_zeros hbase zeros hnames
  rw [value?_of_names (by simp [hsome]) hzeros]
  simp only [Nat.lt_succ_iff]

theorem numeral_exact_largest :
    Names 16 ['f', 'F', 'F', 'f'] 0xFFFF ∧
    value? ['$', '0', '0', '0', 'f', 'F', 'F', 'f'] = some 0xFFFF ∧
    Names 10 ['6', '5', '5', '3', '6'] 0x10000 ∧
    value? ['0', '0', '6', '5', '5', '3', '6'] = none ∧
    ¬ IsDigit 10 '٣' ∧ value? ['1', '2', '٣', '4'] = none ∧
    ¬ IsDigit 2 ' ' ∧ value? ['%', '1', '0', ' '] = none ∧
    ¬ IsDigit 10 '+' ∧ value? ['+', '5'] = none := by
  have hword : Names 16 ['f', 'F', 'F', 'f'] 0xFFFF :=
    ⟨[15, 15, 15, 15], by decide, by decide⟩
  have hlarge : Names 10 ['6', '5', '5', '3', '6'] 0x10000 :=
    ⟨[6, 5, 5, 3, 6], by decide, by decide⟩
  have hscript : ¬ IsDigit 10 '٣' := by decide
  have hblank : ¬ IsDigit 2 ' ' := by decide
  have hplus : ¬ IsDigit 10 '+' := by decide
  have hdigits : ∀ d ∈ ['1', '2'], IsDigit 10 d :=
    List.forall_mem_cons.mpr ⟨by decide, List.forall_mem_singleton.mpr (by decide)⟩
  have hbits : ∀ d ∈ ['1', '0'], IsDigit 2 d :=
    List.forall_mem_cons.mpr ⟨by decide, List.forall_mem_singleton.mpr (by decide)⟩
  obtain ⟨-, -, hzeros, hmisfit⟩ := numeral_exact
  exact ⟨hword, hzeros .hexadecimal _ _ 3 (by decide) hword,
    hlarge, hzeros .decimal _ _ 2 (by decide) hlarge,
    hscript, hmisfit .decimal ['1', '2'] '٣' ['4'] hdigits hscript (by decide),
    hblank, hmisfit .binary ['1', '0'] ' ' [] hbits hblank (by decide),
    hplus, hmisfit .decimal [] '+' ['5'] (List.forall_mem_nil _) hplus (by decide)⟩

end Nmos6502.Numeral
