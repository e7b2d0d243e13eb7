import Nmos6502.Proofs.Disassembly.InstructionText
import Nmos6502.Proofs.OperandReading
import Nmos6502.Proofs.Text.Squashing

set_option autoImplicit false

namespace Nmos6502

namespace Text

/-- Whether a character has a meaning of its own in a line: it ends a label, starts a comment, or
quotes. -/
def isMark (c : Char) : Bool := c == ':' || c == ';' || isQuote c

theorem eq_of_isMark {c : Char} (h : isMark c = true) :
    c = ':' ∨ c = ';' ∨ c = '\x27' ∨ c = '\x22' := by
  simpa [isMark, isQuote, or_assoc] using h

theorem isMark_eq_false_iff {c : Char} :
    isMark c = false ↔ c ≠ ':' ∧ c ≠ ';' ∧ isQuote c = false := by
  simp [isMark, and_assoc]

theorem isMark_of_apart {p : Char → Bool}
    (hp : p ':' = false ∧ p ';' = false ∧ p '\x27' = false ∧ p '\x22' = false) {c : Char}
    (h : p c = true) : isMark c = false := by
  rw [Bool.eq_false_iff]
  intro hmark
  rcases eq_of_isMark hmark with rfl | rfl | rfl | rfl <;> simp_all

theorem isMark_of_isBlank {c : Char} (h : isBlank c = true) : isMark c = false :=
  isMark_of_apart (by decide) h

theorem isMark_of_continuesName {c : Char} (h : Label.continuesName c = true) :
    isMark c = false :=
  isMark_of_apart (by decide) h

theorem isMark_of_isInk {c : Char} (h : isInk c = true) : isMark c = false :=
  isMark_of_apart (by decide) h

theorem isSign_of_isMark {c : Char} (h : isMark c = true) : isSign c = true := by
  rcases eq_of_isMark h with rfl | rfl | rfl | rfl <;> rfl

theorem isSign_of_isBlank {c : Char} (h : isBlank c = true) : isSign c = true := by
  simp [isSign, h]

theorem isMark_of_squash {text : List Char} (h : ∀ c ∈ squash text, isMark c = false) :
    ∀ c ∈ text, isMark c = false := by
  refine forall_of_upper (fun c hmark => isSign_of_isMark hmark) fun c hc => ?_
  by_cases hblank : isBlank c = true
  · exact isMark_of_isBlank hblank
  · exact h c (List.mem_filter.mpr ⟨hc, by simpa using hblank⟩)

end Text

namespace Operation

open Text

variable {word : List Char} {operation : Operation} (h : ofMnemonic? word = some operation)
include h

theorem isInk_toUpper {c : Char} (hc : c ∈ word) : isInk c.toUpper = true := by
  refine List.all_eq_true.mp operation.all_isInk_letters _ ?_
  rw [← map_toUpper_of_ofMnemonic? h]
  exact List.mem_map_of_mem hc

theorem forall_of_ofMnemonic? {p : Char → Bool} (hsign : ∀ c, p c = true → isSign c = true)
    (hink : ∀ c, isInk c = true → p c = false) : ∀ c ∈ word, p c = false := by
  intro c hc
  rw [Bool.eq_false_iff]
  intro hpc
  have hupper := isInk_toUpper h hc
  rw [toUpper_of_isSign (hsign c hpc)] at hupper
  rw [hink c hupper] at hpc
  cases hpc

theorem isBlank_of_ofMnemonic? : ∀ c ∈ word, isBlank c = false :=
  forall_of_ofMnemonic? h (fun _ => isSign_of_isBlank) fun _ => isBlank_of_isInk

theorem isMark_of_ofMnemonic? : ∀ c ∈ word, isMark c = false :=
  forall_of_ofMnemonic? h (fun _ => isSign_of_isMark) fun _ => isMark_of_isInk

theorem ne_nil_of_ofMnemonic? : word ≠ [] := by
  rintro rfl
  exact operation.letters_ne_nil (map_toUpper_of_ofMnemonic? h).symm

end Operation

namespace Assembly

open Text

namespace Statement

variable {word : List Char} {operation : Operation}

/-- Whether a text is a word with which a statement can start, other than the star of an origin. -/
structure IsWord (word : List Char) : Prop where
  ne_nil : word ≠ []
  unbroken : ∀ c ∈ word, isBlank c = false
  starless : '*' ∉ word

theorem isWord_of_ofMnemonic? (h : Operation.ofMnemonic? word = some operation) : IsWord word where
  ne_nil := Operation.ne_nil_of_ofMnemonic? h
  unbroken := Operation.isBlank_of_ofMnemonic? h
  starless hstar := nomatch Operation.isInk_toUpper h hstar

theorem ofUpper_word (h : IsWord word) (rest : List Char) :
    ofUpper (word ++ rest) =
      ofWord (splitWord (word ++ rest)).1 (splitWord (word ++ rest)).2 := by
  cases word with
  | nil => exact absurd rfl h.ne_nil
  | cons c cs =>
    unfold ofUpper
    split
    · rename_i heq
      cases heq
    · rename_i heq
      obtain ⟨rfl, -⟩ := List.cons.inj heq
      exact absurd List.mem_cons_self h.starless
    · rfl

theorem ofText_word {blanks rest : List Char} (hblanks : ∀ c ∈ blanks, isBlank c = true)
    (h : IsWord (upper word)) (hrest : ∀ c ∈ rest.head?, isBlank c = true) :
    ofText (blanks ++ (word ++ rest)) = ofWord (upper word) (trim (upper rest)) := by
  have hword : ∀ c ∈ word, isBlank c = false :=
    forall_of_upper (fun _ => isSign_of_isBlank) h.unbroken
  obtain ⟨first, others, rfl⟩ : ∃ first others, word = first :: others := by
    apply List.exists_cons_of_ne_nil
    rintro rfl
    exact h.ne_nil rfl
  have hstart : trimStart (blanks ++ (first :: others ++ rest)) = first :: others ++ rest := by
    rw [trimStart, List.dropWhile_append_of_pos hblanks, List.cons_append,
      List.dropWhile_cons_of_neg]
    simp [hword first List.mem_cons_self]
  have htrim : trim (blanks ++ (first :: others ++ rest)) = first :: others ++ trimEnd rest := by
    rw [trim, hstart, trimEnd_append fun c hc => hword c (List.mem_of_mem_getLast? hc)]
  obtain ⟨last, hends, hlast⟩ := exists_trimEnd rest
  rw [ofText, htrim, upper_append, ofUpper_word h]
  -- A word that nothing but blanks follow is not split: the blanks are trimmed off with the line.
  cases hshort : trimEnd rest with
  | nil =>
    have hblank : upper rest = last := by rw [hends, hshort, List.nil_append, upper_of_blank hlast]
    have hnil : upper [] = [] := rfl
    rw [hblank, trim_of_blank hlast, hnil, List.append_nil, splitWord_unbroken h.unbroken]
  | cons c cs =>
    have hblank : isBlank c = true := hrest c (by rw [hends, hshort]; rfl)
    have hsplit : splitWord (upper (first :: others) ++ upper (c :: cs)) =
        (upper (first :: others), trim (upper cs)) := by
      rw [upper_cons c, upperChar_of_isBlank hblank, List.singleton_append, splitWord,
        splitFirst?_append h.unbroken hblank]
    have hupper : upper rest = [c] ++ upper cs ++ last := by
      rw [hends, hshort, upper_append, upper_cons, upperChar_of_isBlank hblank,
        upper_of_blank hlast]
    rw [hsplit, hupper, trim_padded (by simpa using hblank) hlast]

theorem ofWord_word (h : Operation.ofMnemonic? word = some operation) (operand : List Char) :
    ofWord word operand = instruction word operand := by
  have directive : ∀ other ∈ originWords ++ dataWords ++ constantWords,
      Operation.ofMnemonic? other = none := by
    decide
  have hword : word ∉ originWords ++ dataWords ++ constantWords := by
    intro hmem
    rw [directive word hmem] at h
    cases h
  simp only [List.mem_append, not_or] at hword
  simp [ofWord, hword]

end Statement

/-- Whether a text in front of a statement is blank, or declares a label. -/
inductive Opening : List Char → Option (List Char) → Prop
  | blank {lead : List Char} (hlead : ∀ c ∈ lead, isBlank c = true) : Opening lead none
  | label {head blanks name : List Char} (hname : SourceLine.labelName? head = some name)
      (hblanks : ∀ c ∈ blanks, isBlank c = true) : Opening (head ++ ':' :: blanks) (some name)

namespace SourceLine

theorem isName_of_labelName? {head name : List Char} (h : labelName? head = some name) :
    Label.isName name = true ∧ name = (trim head).map Char.toUpper := by
  rw [labelName?] at h
  split at h
  · rename_i hname
    cases h
    exact ⟨hname, rfl⟩
  · cases h

theorem isMark_of_labelName? {head name : List Char} (h : labelName? head = some name) :
    ∀ c ∈ head, isMark c = false := by
  obtain ⟨hname, rfl⟩ := isName_of_labelName? h
  obtain ⟨first, last, hhead, hfirst, hlast⟩ := exists_trim head
  intro c hc
  rw [hhead, List.mem_append, List.mem_append] at hc
  rcases hc with (hc | hc) | hc
  · exact isMark_of_isBlank (hfirst c hc)
  · rw [Bool.eq_false_iff]
    intro hmark
    have hcontinues := Label.continuesName_of_isName hname _ (List.mem_map_of_mem hc)
    rw [toUpper_of_isSign (isSign_of_isMark hmark)] at hcontinues
    rw [isMark_of_continuesName hcontinues] at hmark
    cases hmark
  · exact isMark_of_isBlank (hlast c hc)

theorem stripComment_append {code : List Char} (h : ∀ c ∈ code, c ≠ ';' ∧ isQuote c = false)
    (trail : List Char) : stripComment (code ++ trail) = code ++ stripComment trail := by
  rw [stripComment, stripComment, splitUnquoted?_append h]
  cases splitUnquoted? ';' trail <;> rfl

end SourceLine

theorem SourceLine.unmarked_of_blank {text : List Char} (h : ∀ c ∈ text, isBlank c = true) :
    ∀ c ∈ text, c ≠ ';' ∧ isQuote c = false :=
  fun c hc => (isMark_eq_false_iff.mp (isMark_of_isBlank (h c hc))).2

namespace Opening

variable {lead : List Char} {label : Option (List Char)}

theorem uncommented (h : Opening lead label) : ∀ c ∈ lead, c ≠ ';' ∧ isQuote c = false := by
  cases h with
  | blank hlead => exact fun c hc => (isMark_eq_false_iff.mp (isMark_of_isBlank (hlead c hc))).2
  | label hname hblanks =>
    intro c hc
    rcases List.mem_append.mp hc with hc | hc
    · exact (isMark_eq_false_iff.mp (SourceLine.isMark_of_labelName? hname c hc)).2
    rcases List.mem_cons.mp hc with rfl | hc
    · exact ⟨by decide, rfl⟩
    · exact (isMark_eq_false_iff.mp (isMark_of_isBlank (hblanks c hc))).2

theorem splitLabel (h : Opening lead label) {body : List Char} (hbody : ':' ∉ body) :
    ∃ blanks, (∀ c ∈ blanks, isBlank c = true) ∧
      SourceLine.splitLabel (lead ++ body) = (label, blanks ++ body) := by
  have colon : ∀ text : List Char, (∀ c ∈ text, isMark c = false) →
      ∀ c ∈ text, (c == ':') = false := fun text htext c hc =>
    beq_eq_false_iff_ne.mpr (isMark_eq_false_iff.mp (htext c hc)).1
  cases h with
  | blank hlead =>
    refine ⟨lead, hlead, ?_⟩
    rw [SourceLine.splitLabel, splitFirst?_eq_none]
    refine List.forall_mem_append.mpr ⟨colon lead fun c hc => isMark_of_isBlank (hlead c hc), ?_⟩
    intro c hc
    simpa using fun he : c = ':' => hbody (he ▸ hc)
  | @label head blanks name hname hblanks =>
    refine ⟨blanks, hblanks, ?_⟩
    rw [List.append_assoc, List.cons_append, SourceLine.splitLabel,
      splitFirst?_append (colon head (SourceLine.isMark_of_labelName? hname)) (by decide)]
    simp only [hname]

end Opening

/-- What stands around the operand in a line with an instruction. -/
structure Surroundings where
  label : Option (List Char)
  operation : Operation
  lead : List Char
  word : List Char
  gap : List Char
  trail : List Char
  opening : Opening lead label
  mnemonic : Operation.ofMnemonic? (upper word) = some operation
  gap_ne_nil : gap ≠ []
  gap_blank : ∀ c ∈ gap, isBlank c = true
  trail_blank : ∀ c ∈ SourceLine.stripComment trail, isBlank c = true

namespace Surroundings

def line (around : Surroundings) (operand : List Char) : List Char :=
  around.lead ++ (around.word ++ (around.gap ++ operand)) ++ around.trail

theorem ofText_line (around : Surroundings) {operand : List Char}
    (hoperand : ∀ c ∈ squash operand, isMark c = false) :
    ∃ text, SourceLine.ofText (around.line operand) =
        ⟨around.label, .instruction (upper around.word) text⟩ ∧
      removeBlanks text = squash operand := by
  obtain ⟨label, operation, lead, word, gap, trail, opening, mnemonic, gap_ne_nil, gap_blank,
    trail_blank⟩ := around
  have hword : ∀ c ∈ word, isMark c = false :=
    forall_of_upper (fun _ => isSign_of_isMark) (Operation.isMark_of_ofMnemonic? mnemonic)
  have hbody : ∀ c ∈ word ++ (gap ++ operand), isMark c = false :=
    List.forall_mem_append.mpr ⟨hword, List.forall_mem_append.mpr
      ⟨fun c hc => isMark_of_isBlank (gap_blank c hc), isMark_of_squash hoperand⟩⟩
  have hcomment : SourceLine.stripComment (lead ++ (word ++ (gap ++ operand)) ++ trail) =
      lead ++ (word ++ (gap ++ operand) ++ SourceLine.stripComment trail) := by
    rw [SourceLine.stripComment_append, List.append_assoc]
    exact List.forall_mem_append.mpr
      ⟨opening.uncommented, fun c hc => (isMark_eq_false_iff.mp (hbody c hc)).2⟩
  have hcolon : ':' ∉ word ++ (gap ++ operand) ++ SourceLine.stripComment trail := by
    intro hc
    rcases List.mem_append.mp hc with hc | hc
    · cases hbody _ hc
    · cases isMark_of_isBlank (trail_blank _ hc)
  obtain ⟨blanks, hblanks, hsplit⟩ := opening.splitLabel hcolon
  obtain ⟨first, others, rfl⟩ := List.exists_cons_of_ne_nil gap_ne_nil
  have hgap : ∀ c ∈ (first :: others ++ operand ++ SourceLine.stripComment trail).head?,
      isBlank c = true := by
    simpa using gap_blank first List.mem_cons_self
  refine ⟨trim (upper (first :: others ++ operand ++ SourceLine.stripComment trail)), ?_, ?_⟩
  · simp only [line, SourceLine.ofText, hcomment, hsplit]
    rw [List.append_assoc word,
      Statement.ofText_word hblanks (Statement.isWord_of_ofMnemonic? mnemonic) hgap,
      Statement.ofWord_word mnemonic]
  · rw [removeBlanks_trim, ← squash, squash_append, squash_append, squash_of_blank gap_blank,
      squash_of_blank trail_blank, List.nil_append, List.append_nil]

end Surroundings

theorem SourceLine.exists_comment (line : List Char) :
    ∃ comment, line = stripComment line ++ comment ∧ stripComment comment = [] := by
  rw [stripComment]
  cases hsplit : splitUnquoted? ';' line with
  | none => exact ⟨[], (List.append_nil line).symm, rfl⟩
  | some parts => exact ⟨';' :: parts.2, eq_of_splitUnquoted? hsplit, rfl⟩

theorem SourceLine.exists_opening {code rest : List Char} {label : Option (List Char)}
    (h : splitLabel code = (label, rest)) :
    ∃ lead, code = lead ++ rest ∧
      ∀ blanks, (∀ c ∈ blanks, isBlank c = true) → Opening (lead ++ blanks) label := by
  unfold splitLabel at h
  split at h
  · rename_i head behind hsplit
    obtain ⟨c, hc, -, rfl⟩ := eq_of_splitFirst? hsplit
    obtain rfl : c = ':' := by simpa using hc
    split at h
    · rename_i name hname
      obtain ⟨rfl, rfl⟩ := Prod.mk.inj h
      refine ⟨head ++ [':'], by simp, fun blanks hblanks => ?_⟩
      rw [List.append_assoc, List.singleton_append]
      exact .label hname hblanks
    · obtain ⟨rfl, rfl⟩ := Prod.mk.inj h
      exact ⟨[], rfl, fun blanks hblanks => .blank hblanks⟩
  · obtain ⟨rfl, rfl⟩ := Prod.mk.inj h
    exact ⟨[], rfl, fun blanks hblanks => .blank hblanks⟩

namespace Statement

theorem splitWord_of_ofUpper {text word operand : List Char}
    (h : ofUpper text = instruction word operand) : splitWord text = (word, operand) := by
  unfold ofUpper at h
  split at h
  · cases h
  · cases h
  · rw [ofWord] at h
    split at h
    · cases h
    split at h
    · cases h
    split at h
    · cases h
    · cases h
      rfl

theorem cut_of_splitWord {body word operand : List Char}
    (h : splitWord (upper body) = (word, operand)) :
    (operand = [] ∧ ∀ c ∈ body, isBlank c = false) ∨
      ∃ front c rest, body = front ++ c :: rest ∧ upper front = word ∧
        (∀ d ∈ front, isBlank d = false) ∧ isBlank c = true ∧ trim (upper rest) = operand := by
  have hink {text : List Char} (h : ∀ c ∈ upper text, isBlank c = false) :
      ∀ c ∈ text, isBlank c = false :=
    forall_of_upper (fun _ => isSign_of_isBlank) h
  unfold splitWord at h
  split at h
  · rename_i before behind hsplit
    obtain ⟨rfl, rfl⟩ := Prod.mk.inj h
    obtain ⟨c, hc, hbefore, htext⟩ := eq_of_splitFirst? hsplit
    obtain ⟨front, rest, rfl, rfl, rfl⟩ := exists_cut_of_upper (isSign_of_isBlank hc) htext
    exact .inr ⟨front, c, rest, rfl, rfl, hink hbefore, hc, rfl⟩
  · rename_i hsplit
    exact .inl ⟨(Prod.mk.inj h).2.symm, hink (eq_false_of_splitFirst?_eq_none hsplit)⟩

end Statement

namespace SourceLine

def cut (line : List Char) : List Char × List Char × List Char :=
  let code := stripComment line
  let rest := (splitLabel code).2
  let lead := code.take (code.length - rest.length) ++ rest.takeWhile isBlank
  (lead, trim rest, line.drop (lead.length + (trim rest).length))

structure IsCut (line lead body trail : List Char) : Prop where
  line_eq : line = lead ++ body ++ trail
  opening : Opening lead (ofText line).label
  trail_blank : ∀ c ∈ stripComment trail, isBlank c = true
  statement_eq : (ofText line).statement = Statement.ofUpper (upper body)

theorem isCut_cut (line : List Char) : IsCut line (cut line).1 (cut line).2.1 (cut line).2.2 := by
  obtain ⟨comment, hline, hcomment⟩ := exists_comment line
  cases hsplit : splitLabel (stripComment line) with
  | mk label rest =>
    obtain ⟨front, hcode, hopening⟩ := exists_opening hsplit
    obtain ⟨last, hlast, hlastBlank⟩ := exists_trimEnd (trimStart rest)
    have hfirstBlank : ∀ c ∈ rest.takeWhile isBlank, isBlank c = true :=
      fun _ hc => List.mem_takeWhile_imp hc
    have hrest : rest.takeWhile isBlank ++ (trim rest ++ last) = rest := by
      rw [trim, ← hlast, trimStart, List.takeWhile_append_dropWhile]
    have hparts : line = front ++ rest.takeWhile isBlank ++ trim rest ++ (last ++ comment) := by
      calc
        line = front ++ rest ++ comment := hcode ▸ hline
        _ = front ++ (rest.takeWhile isBlank ++ (trim rest ++ last)) ++ comment := by rw [hrest]
        _ = _ := by simp only [List.append_assoc]
    have hlead : (stripComment line).take ((stripComment line).length - rest.length) = front := by
      rw [hcode, List.length_append, Nat.add_sub_cancel, List.take_left]
    have hcut : cut line = (front ++ rest.takeWhile isBlank, trim rest, last ++ comment) := by
      simp only [cut, hsplit, hlead, Prod.mk.injEq, true_and]
      nth_rewrite 1 [hparts]
      rw [← List.length_append, List.drop_left]
    rw [hcut]
    refine ⟨hparts, ?_, ?_, ?_⟩
    · simp only [ofText, hsplit]
      exact hopening _ hfirstBlank
    · rwa [stripComment_append (unmarked_of_blank hlastBlank), hcomment, List.append_nil]
    · simp only [ofText, hsplit, Statement.ofText]

end SourceLine

/-- Every line that is read as an instruction with an operand can be cut around the operand. -/
theorem exists_surroundings {line word operand : List Char} {label : Option (List Char)}
    {operation : Operation} (hword : Operation.ofMnemonic? word = some operation)
    (hoperand : operand ≠ []) (h : SourceLine.ofText line = ⟨label, .instruction word operand⟩) :
    ∃ (around : Surroundings) (text : List Char), line = around.line text ∧
      around.label = label ∧ around.operation = operation ∧ upper around.word = word ∧
        squash text = removeBlanks operand := by
  obtain ⟨hline, hopening, htrail, hstatement⟩ := SourceLine.isCut_cut line
  rw [h] at hopening hstatement
  rcases Statement.cut_of_splitWord (Statement.splitWord_of_ofUpper hstatement.symm) with
    ⟨hnone, -⟩ | ⟨front, c, rest, hbody, rfl, -, hc, hrest⟩
  · exact absurd hnone hoperand
  · refine ⟨⟨label, operation, _, front, [c], _, hopening, hword, by simp, by simpa using hc,
      htrail⟩, rest, ?_, rfl, rfl, rfl, by rw [← hrest, removeBlanks_trim, squash]⟩
    nth_rewrite 1 [hline]
    rw [hbody]
    simp [Surroundings.line]

end Assembly
end Nmos6502
