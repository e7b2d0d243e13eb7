import Mathlib.Data.List.TakeWhile
import Nmos6502.Proofs.Text.Cutting

/-!
# Text in upper case without blanks

Operands are read in upper case and without blanks. Blanks and signs are their own upper case and
come from nothing else, so a cut of the squashed text at a sign is a cut of the text. Main
statements: `squash_append`, `removeBlanks_trim` and `exists_cut_of_upper`.
-/

set_option autoImplicit false

namespace Nmos6502.Text

/-- A text in upper case and without blanks. -/
def squash (text : List Char) : List Char := removeBlanks (upper text)

theorem removeBlanks_append (s t : List Char) :
    removeBlanks (s ++ t) = removeBlanks s ++ removeBlanks t :=
  List.filter_append s t

theorem upper_cons (c : Char) (cs : List Char) : upper (c :: cs) = upperChar c ++ upper cs := rfl

theorem upper_intercalate (joint : List Char) (parts : List (List Char)) :
    upper (joint.intercalate parts) = (upper joint).intercalate (parts.map upper) := by
  induction parts with
  | nil => rfl
  | cons part parts ih =>
    cases parts with
    | nil => simp
    | cons next parts =>
      rw [List.intercalate_cons_cons, upper_append, upper_append, ih]
      simp only [List.map_cons, List.intercalate_cons_cons]

theorem squash_append (s t : List Char) : squash (s ++ t) = squash s ++ squash t := by
  rw [squash, upper_append, removeBlanks_append, squash, squash]

/-! ### Characters that upper case leaves alone -/

def blankCodes : List Nat := [9, 10, 11, 12, 13, 0x20, 0x85, 0xA0, 0x1680, 0x2000, 0x2001, 0x2002,
  0x2003, 0x2004, 0x2005, 0x2006, 0x2007, 0x2008, 0x2009, 0x200A, 0x2028, 0x2029, 0x202F, 0x205F,
  0x3000]

theorem mem_blankCodes {c : Char} (h : isBlank c = true) : c.toNat ∈ blankCodes := by
  simp only [isBlank, Bool.or_eq_true, Bool.and_eq_true, decide_eq_true_eq, beq_iff_eq] at h
  simp only [blankCodes, List.mem_cons, List.not_mem_nil, or_false]
  omega

theorem upperChar_of_isBlank {c : Char} (h : isBlank c = true) : upperChar c = [c] := by
  have all : ∀ code ∈ blankCodes, upperChar (Char.ofNat code) = [Char.ofNat code] := by
    decide +kernel
  simpa using all c.toNat (mem_blankCodes h)

theorem upper_of_blank {text : List Char} (h : ∀ c ∈ text, isBlank c = true) : upper text = text :=
  upper_of_upperChar fun c hc => upperChar_of_isBlank (h c hc)

theorem removeBlanks_of_blank {text : List Char} (h : ∀ c ∈ text, isBlank c = true) :
    removeBlanks text = [] := by
  rw [removeBlanks, List.filter_eq_nil_iff]
  simpa using h

theorem squash_of_blank {text : List Char} (h : ∀ c ∈ text, isBlank c = true) :
    squash text = [] := by
  rw [squash, upper_of_blank h, removeBlanks_of_blank h]

/-- Whether a character is a blank or stands in front of the letters. -/
def isSign (c : Char) : Bool := c.toNat < 65 || isBlank c

theorem isSign_toUpper {c : Char} (hascii : c.toNat < 128) (h : isSign c.toUpper = true) :
    c.toUpper = c := by
  have all : ∀ code < 128, isSign (Char.ofNat code).toUpper = true →
      (Char.ofNat code).toUpper = Char.ofNat code := by
    decide
  simpa using all c.toNat hascii (by simpa using h)

def CaseRun.leadsToLetters (run : CaseRun) : Bool :=
  65 ≤ run.first + run.offset &&
    (run.last + run.offset < 0xD800 ||
      (0xE000 ≤ run.first + run.offset && run.last + run.offset < 0x110000)) &&
    blankCodes.all fun code => run.last + run.offset < code || code < run.first + run.offset

theorem CaseRun.toNat_of_contains {run : CaseRun} (hrun : run.leadsToLetters = true) {code : Nat}
    (h : run.contains code = true) :
    (Char.ofNat (code + run.offset).toNat).toNat = (code + run.offset).toNat := by
  simp only [leadsToLetters, Bool.and_eq_true, Bool.or_eq_true, decide_eq_true_eq] at hrun
  simp only [contains, Bool.and_eq_true, decide_eq_true_eq, beq_iff_eq] at h
  have hchar : (code + run.offset).toNat.isValidChar := by
    unfold Nat.isValidChar
    omega
  rw [Char.ofNat, dif_pos hchar]
  rfl

theorem CaseRun.isSign_of_contains {run : CaseRun} (hrun : run.leadsToLetters = true) {code : Nat}
    (h : run.contains code = true) : isSign (Char.ofNat (code + run.offset).toNat) = false := by
  have hcode := toNat_of_contains hrun h
  simp only [leadsToLetters, Bool.and_eq_true, Bool.or_eq_true, decide_eq_true_eq,
    List.all_eq_true] at hrun
  obtain ⟨⟨hlow, -⟩, hblanks⟩ := hrun
  simp only [contains, Bool.and_eq_true, decide_eq_true_eq, beq_iff_eq] at h
  obtain ⟨⟨hfirst, hlast⟩, -⟩ := h
  cases hsign : isSign (Char.ofNat (code + run.offset).toNat) with
  | false => rfl
  | true =>
    simp only [isSign, Bool.or_eq_true, decide_eq_true_eq] at hsign
    rcases hsign with hsmall | hblank
    · omega
    · have hmem := mem_blankCodes hblank
      have hapart := hblanks _ hmem
      omega

theorem leadsToLetters_of_mem : ∀ run ∈ CaseRun.all, run.leadsToLetters = true := by
  decide +kernel

/-- Signs come from themselves only. -/
theorem eq_of_mem_upperChar {c d : Char} (hd : isSign d = true) (h : d ∈ upperChar c) : d = c := by
  have hexpansions : ∀ expansion ∈ caseExpansions, ∀ code ∈ expansion.2,
      isSign (Char.ofNat code) = false := by decide
  unfold upperChar at h
  split at h
  · rename_i hascii
    obtain rfl := List.mem_singleton.mp h
    exact isSign_toUpper hascii hd
  · split at h
    · rename_i expansion codes hfound
      obtain ⟨code, hcode, rfl⟩ := List.mem_map.mp h
      rw [hexpansions _ (List.mem_of_find?_eq_some hfound) code hcode] at hd
      cases hd
    · split at h
      · rename_i run hfound
        obtain rfl := List.mem_singleton.mp h
        have hcontains : run.contains c.toNat = true := by simpa using List.find?_some hfound
        have hletter := CaseRun.isSign_of_contains
          (leadsToLetters_of_mem run (List.mem_of_find?_eq_some hfound)) hcontains
        rw [hletter] at hd
        cases hd
      · exact List.mem_singleton.mp h

theorem upperChar_of_isSign {c : Char} (h : isSign c = true) : upperChar c = [c] := by
  have all : ∀ code < 65, upperChar (Char.ofNat code) = [Char.ofNat code] := by decide
  simp only [isSign, Bool.or_eq_true, decide_eq_true_eq] at h
  rcases h with hsmall | hblank
  · simpa using all c.toNat hsmall
  · exact upperChar_of_isBlank hblank

theorem toUpper_of_isSign {c : Char} (h : isSign c = true) : c.toUpper = c := by
  have small : ∀ code < 65, (Char.ofNat code).toUpper = Char.ofNat code := by decide
  have blank : ∀ code ∈ blankCodes, (Char.ofNat code).toUpper = Char.ofNat code := by
    decide
  simp only [isSign, Bool.or_eq_true, decide_eq_true_eq] at h
  rcases h with hsmall | hblank
  · simpa using small c.toNat hsmall
  · simpa using blank c.toNat (mem_blankCodes hblank)

theorem toUpper_of_toNat {c : Char} (h : c.toNat < 97 ∨ 122 < c.toNat) : c.toUpper = c := by
  refine dif_neg ?_
  rintro ⟨hlow, hhigh⟩
  have hlow' : 97 ≤ c.toNat := hlow
  have hhigh' : c.toNat ≤ 122 := hhigh
  omega

theorem congr_toUpper {α : Type} {f : Char → α}
    (h : ∀ code < 128, f (Char.ofNat code).toUpper = f (Char.ofNat code)) (c : Char) :
    f c.toUpper = f c := by
  by_cases hascii : c.toNat < 128
  · simpa only [Char.ofNat_toNat] using h c.toNat hascii
  · rw [toUpper_of_toNat (by omega)]

theorem toUpper_toUpper (c : Char) : c.toUpper.toUpper = c.toUpper :=
  congr_toUpper (by decide) c

theorem toUpper_of_mem_upperChar {c d : Char} (h : d ∈ upperChar c) : d.toUpper = d := by
  have hexpansions : ∀ expansion ∈ caseExpansions, ∀ code ∈ expansion.2,
      (Char.ofNat code).toUpper = Char.ofNat code := by decide
  have hruns : ∀ run ∈ CaseRun.all,
      run.last + run.offset < 97 ∨ 122 < run.first + run.offset := by decide +kernel
  unfold upperChar at h
  split at h
  · obtain rfl := List.mem_singleton.mp h
    exact toUpper_toUpper c
  rename_i hlarge
  split at h
  · rename_i expansion codes hfound
    obtain ⟨code, hcode, rfl⟩ := List.mem_map.mp h
    exact hexpansions _ (List.mem_of_find?_eq_some hfound) code hcode
  split at h
  · rename_i run hfound
    obtain rfl := List.mem_singleton.mp h
    have hmem := List.mem_of_find?_eq_some hfound
    have hcontains : run.contains c.toNat = true := by simpa using List.find?_some hfound
    have hcode := CaseRun.toNat_of_contains (leadsToLetters_of_mem run hmem) hcontains
    have hrange := hruns run hmem
    simp only [CaseRun.contains, Bool.and_eq_true, decide_eq_true_eq, beq_iff_eq] at hcontains
    apply toUpper_of_toNat
    omega
  · obtain rfl := List.mem_singleton.mp h
    exact toUpper_of_toNat (by omega)

theorem toUpper_of_mem_upper {text : List Char} {d : Char} (h : d ∈ upper text) :
    d.toUpper = d := by
  obtain ⟨c, -, hd⟩ := List.mem_flatMap.mp h
  exact toUpper_of_mem_upperChar hd

theorem mem_of_mem_upper {text : List Char} {d : Char} (hd : isSign d = true) (h : d ∈ upper text) :
    d ∈ text := by
  obtain ⟨c, hc, hmem⟩ := List.mem_flatMap.mp h
  rwa [eq_of_mem_upperChar hd hmem]

theorem mem_upper_of_isSign {text : List Char} {c : Char} (hsign : isSign c = true)
    (hc : c ∈ text) : c ∈ upper text :=
  List.mem_flatMap.mpr ⟨c, hc, by simp [upperChar_of_isSign hsign]⟩

theorem forall_of_upper {p : Char → Bool} (hp : ∀ c, p c = true → isSign c = true)
    {text : List Char} (h : ∀ c ∈ upper text, p c = false) : ∀ c ∈ text, p c = false := by
  intro c hc
  rw [Bool.eq_false_iff]
  intro hpc
  rw [h c (mem_upper_of_isSign (hp c hpc) hc)] at hpc
  cases hpc

theorem squash_cons {c : Char} (hsign : isSign c = true) (hink : isBlank c = false)
    (text : List Char) : squash (c :: text) = c :: squash text := by
  have hone : removeBlanks [c] = [c] := removeBlanks_of_none (by simpa using hink)
  rw [squash, upper_cons, upperChar_of_isSign hsign, removeBlanks_append, hone]
  rfl

/-- A sign in upper-case text is a sign of the text. -/
theorem exists_cut_of_upper {text before rest : List Char} {d : Char} (hd : isSign d = true)
    (h : upper text = before ++ d :: rest) :
    ∃ s t, text = s ++ d :: t ∧ upper s = before ∧ upper t = rest := by
  induction text generalizing before with
  | nil => simp [upper] at h
  | cons c cs ih =>
    rw [upper_cons] at h
    rcases List.append_eq_append_iff.mp h with ⟨between, rfl, hcs⟩ | ⟨tail, hc, hrest⟩
    · obtain ⟨s, t, rfl, rfl, rfl⟩ := ih hcs
      exact ⟨c :: s, t, rfl, upper_cons c s, rfl⟩
    · cases tail with
      | nil =>
        have hcs : upper cs = [] ++ d :: rest := hrest.symm
        obtain ⟨s, t, rfl, hs, rfl⟩ := ih hcs
        refine ⟨c :: s, t, rfl, ?_, rfl⟩
        rw [upper_cons, hs, hc]
        simp
      | cons e es =>
        obtain ⟨rfl, htail⟩ := List.cons.inj hrest
        have hmem : d ∈ upperChar c := by simp [hc]
        obtain rfl := eq_of_mem_upperChar hd hmem
        have hsingle := upperChar_of_isSign hd
        rw [hsingle] at hc
        have hlength := congrArg List.length hc
        simp only [List.length_append, List.length_cons, List.length_nil] at hlength
        obtain rfl : before = [] := List.eq_nil_of_length_eq_zero (by omega)
        obtain rfl : es = [] := List.eq_nil_of_length_eq_zero (by omega)
        exact ⟨[], cs, rfl, rfl, htail.symm⟩

theorem exists_cut_of_squash {text before rest : List Char} {d : Char} (hd : isSign d = true)
    (h : squash text = before ++ d :: rest) :
    ∃ s t, text = s ++ d :: t ∧ squash s = before ∧ squash t = rest := by
  obtain ⟨first, last, hupper, rfl, hlast⟩ := List.filter_eq_append_iff.mp h
  obtain ⟨blanks, others, rfl, hblanks, -, rfl⟩ := List.filter_eq_cons_iff.mp hlast
  rw [← List.append_assoc] at hupper
  obtain ⟨s, t, rfl, hs, rfl⟩ := exists_cut_of_upper hd hupper
  refine ⟨s, t, rfl, ?_, rfl⟩
  rw [squash, hs, removeBlanks, List.filter_append, List.filter_eq_nil_iff.mpr hblanks,
    List.append_nil]

/-! ### Blanks at the ends -/

theorem trimEnd_append {s : List Char} (hs : ∀ c ∈ s.getLast?, isBlank c = false)
    (t : List Char) : trimEnd (s ++ t) = s ++ trimEnd t := by
  have hkeep : s.reverse.dropWhile isBlank = s.reverse := by
    cases hreverse : s.reverse with
    | nil => rfl
    | cons c cs => simp [hs c (by simp [← List.head?_reverse, hreverse])]
  rw [trimEnd, List.reverse_append, List.dropWhile_append]
  split
  · rename_i hempty
    rw [trimEnd, List.isEmpty_iff.mp hempty, hkeep]
    simp
  · simp [trimEnd]

theorem trimEnd_append_blank {trail : List Char} (h : ∀ c ∈ trail, isBlank c = true)
    (text : List Char) : trimEnd (text ++ trail) = trimEnd text := by
  rw [trimEnd, List.reverse_append, List.dropWhile_append_of_pos (by simpa using h), trimEnd]

theorem trim_padded {lead trail : List Char} (hlead : ∀ c ∈ lead, isBlank c = true)
    (htrail : ∀ c ∈ trail, isBlank c = true) (text : List Char) :
    trim (lead ++ text ++ trail) = trim text := by
  rw [trim, trimStart, List.append_assoc, List.dropWhile_append_of_pos hlead,
    List.dropWhile_append]
  split
  · rename_i hempty
    have hnone : trimStart text = [] := List.isEmpty_iff.mp hempty
    have hblank : trail.dropWhile isBlank = [] := trimStart_of_blank htrail
    rw [hblank, trim, hnone]
  · exact trimEnd_append_blank htrail _

theorem exists_trimEnd (text : List Char) :
    ∃ blanks, text = trimEnd text ++ blanks ∧ ∀ c ∈ blanks, isBlank c = true := by
  refine ⟨(text.reverse.takeWhile isBlank).reverse, ?_, ?_⟩
  · rw [trimEnd, ← List.reverse_append, List.takeWhile_append_dropWhile, List.reverse_reverse]
  · intro c hc
    exact List.mem_takeWhile_imp (List.mem_reverse.mp hc)

theorem exists_trimStart (text : List Char) :
    ∃ blanks, text = blanks ++ trimStart text ∧ ∀ c ∈ blanks, isBlank c = true :=
  ⟨text.takeWhile isBlank, List.takeWhile_append_dropWhile.symm,
    fun _ hc => List.mem_takeWhile_imp hc⟩

theorem exists_trim (text : List Char) :
    ∃ first last, text = first ++ trim text ++ last ∧ (∀ c ∈ first, isBlank c = true) ∧
      ∀ c ∈ last, isBlank c = true := by
  obtain ⟨first, hfirst, hfirstBlank⟩ := exists_trimStart text
  obtain ⟨last, hlast, hlastBlank⟩ := exists_trimEnd (trimStart text)
  refine ⟨first, last, ?_, hfirstBlank, hlastBlank⟩
  rw [List.append_assoc, trim, ← hlast, ← hfirst]

theorem trim_subset (text : List Char) : trim text ⊆ text := by
  obtain ⟨first, last, htext, -, -⟩ := exists_trim text
  intro c hc
  rw [htext]
  exact List.mem_append_left _ (List.mem_append_right _ hc)

theorem removeBlanks_trim (text : List Char) : removeBlanks (trim text) = removeBlanks text := by
  obtain ⟨first, last, htext, hfirst, hlast⟩ := exists_trim text
  have hremove := congrArg removeBlanks htext
  rw [removeBlanks_append, removeBlanks_append, removeBlanks_of_blank hfirst,
    removeBlanks_of_blank hlast, List.nil_append, List.append_nil] at hremove
  exact hremove.symm

end Nmos6502.Text
