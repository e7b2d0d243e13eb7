import Nmos6502.Proofs.Assembly.LineReading
import Nmos6502.Proofs.Assembly.Placement

/-!
# Sources without constants

A definition of a constant can be taken out of a source, if the operands below are written as they
are after the replacement: the code stays the same. Main statement: `assemble_expanded`. Both
sources are laid out side by side; the records differ only in those of the definitions, which emit
nothing.
-/

set_option autoImplicit false

namespace Nmos6502

open Text

namespace Assembly

open Outcome

/-! ### The expanded source -/

/-- The constants that some definitions leave in force: in the order in which the names were first
defined, each with the value that it was last given. -/
def Constant.inForce (definitions : List Constant) : List Constant :=
  (definitions.map Constant.name).eraseDups.filterMap fun name =>
    definitions.reverse.find? fun constant => constant.name == name

def Statement.definition? : Statement → Option Constant
  | constant _ operand => Layout.constant? operand
  | _ => none

def Statement.withOperand (text operand : List Char) : List Char :=
  let word := text.takeWhile fun c => !isBlank c
  let gap := (text.drop word.length).takeWhile isBlank
  word ++ (gap ++ operand)

def Statement.expand (constants : List Constant) (text : List Char) : List Char :=
  match ofUpper (upper text) with
  | constant _ _ => []
  | instruction _ operand => withOperand text (Constant.substitute constants operand)
  | _ => text

/-- A line with its statement expanded; the label, the blanks and the comment stay. -/
def SourceLine.expand (constants : List Constant) (line : List Char) : List Char :=
  let (lead, body, trail) := cut line
  lead ++ Statement.expand constants body ++ trail

def expandLines (definitions : List Constant) : List (List Char) → List (List Char)
  | [] => []
  | line :: rest =>
    SourceLine.expand (Constant.inForce definitions) line ::
      expandLines (definitions ++ (SourceLine.ofText line).statement.definition?.toList) rest

def expandConstants (source : String) : String :=
  String.ofList (['\n'].intercalate (expandLines [] (source.toList.splitOn '\n')))

/-! ### Constants in force -/

namespace Constant

theorem define_names {constant : Constant} {last next : String → Option Constant}
    (hnew : next constant.name = some constant)
    (hold : ∀ name, name ≠ constant.name → next name = last name) (names : List String)
    (hnamed : ∀ name ∈ names, ∃ found, last name = some found ∧ found.name = name) :
    constant.define (names.eraseDups.filterMap last) =
      (names ++ [constant.name]).eraseDups.filterMap next := by
  match names with
  | [] => simp [define, List.eraseDups_cons, hnew]
  | name :: rest =>
    have hshorter := List.length_filter_le (fun other => !other == name) rest
    obtain ⟨⟨found, hfound, hname⟩, hrest⟩ := List.forall_mem_cons.mp hnamed
    have ih := define_names hnew hold (rest.filter fun other => !other == name)
      fun other hother => hrest other (List.mem_filter.mp hother).1
    rw [List.cons_append, List.eraseDups_cons, List.eraseDups_cons, List.filter_append,
      List.filterMap_cons_some hfound, define, hname]
    by_cases hsame : name = constant.name
    · subst hsame
      rw [if_pos rfl, List.filterMap_cons_some hnew, List.filter_cons_of_neg (by simp),
        List.filter_nil, List.append_nil]
      congr 1
      apply List.filterMap_congr
      intro other hother
      have hother' := (List.mem_filter.mp (List.mem_eraseDups.mp hother)).2
      exact (hold other (by simpa using hother')).symm
    · rw [if_neg hsame, List.filterMap_cons_some ((hold name hsame).trans hfound), ih,
        List.filter_cons_of_pos (by simpa using Ne.symm hsame), List.filter_nil]
termination_by names.length

theorem define_inForce (constant : Constant) (definitions : List Constant) :
    constant.define (inForce definitions) = inForce (definitions ++ [constant]) := by
  have hreverse : (definitions ++ [constant]).reverse = constant :: definitions.reverse := by simp
  rw [inForce, inForce, List.map_append, List.map_singleton, hreverse]
  apply define_names
  · rw [List.find?_cons_of_pos (by simp)]
  · intro name hother
    rw [List.find?_cons_of_neg (by simpa using hother.symm)]
  · intro name hname
    obtain ⟨defined, hdefined, rfl⟩ := List.mem_map.mp hname
    have hsome :
        (definitions.reverse.find? fun found => found.name == defined.name).isSome = true :=
      List.find?_isSome.mpr ⟨defined, List.mem_reverse.mpr hdefined, by simp⟩
    obtain ⟨found, hfound⟩ := Option.isSome_iff_exists.mp hsome
    exact ⟨found, hfound, by simpa using List.find?_some hfound⟩

theorem mem_of_mem_inForce {constant : Constant} {definitions : List Constant}
    (h : constant ∈ inForce definitions) : constant ∈ definitions := by
  obtain ⟨name, -, hfound⟩ := List.mem_filterMap.mp h
  exact List.mem_reverse.mp (List.mem_of_find?_eq_some hfound)

end Constant

/-! ### What constants and operands are made of -/

/-- Whether a text can be a part of a line in upper case. -/
def IsRaised (text : List Char) : Prop := ∀ c ∈ text, c.toUpper = c ∧ c ≠ '\n'

theorem isRaised_upper {text : List Char} (h : '\n' ∉ text) : IsRaised (upper text) := by
  intro c hc
  refine ⟨toUpper_of_mem_upper hc, ?_⟩
  rintro rfl
  exact h (mem_of_mem_upper rfl hc)

theorem IsRaised.subset {text part : List Char} (h : IsRaised text) (hpart : part ⊆ text) :
    IsRaised part :=
  fun c hc => h c (hpart hc)

namespace Statement

theorem definition?_eq_none {statement : Statement}
    (h : ∀ word operand, statement ≠ constant word operand) : statement.definition? = none := by
  cases statement with
  | constant word operand => exact absurd rfl (h word operand)
  | _ => rfl

def operand : Statement → List Char
  | empty => []
  | origin _ operand | data _ operand | constant _ operand | instruction _ operand => operand

theorem operand_ofWord (word operand : List Char) : (ofWord word operand).operand = operand := by
  unfold ofWord
  split_ifs <;> rfl

theorem splitWord_subset (text : List Char) : (splitWord text).2 ⊆ text := by
  unfold splitWord
  cases hcut : splitFirst? isBlank text with
  | none => exact List.nil_subset text
  | some parts =>
    obtain ⟨c, -, -, rfl⟩ := eq_of_splitFirst? hcut
    exact List.Subset.trans (trim_subset parts.2)
      (List.Subset.trans (List.subset_cons_self c parts.2) (List.subset_append_right parts.1 _))

theorem operand_subset (text : List Char) : (ofUpper text).operand ⊆ text := by
  unfold ofUpper
  split
  · exact List.nil_subset []
  · exact List.Subset.trans (trim_subset _)
      (List.Subset.trans (List.subset_cons_self _ _) (List.subset_cons_self _ _))
  · rw [operand_ofWord]
    exact splitWord_subset text

end Statement

namespace Constant

structure WellFormed (constant : Constant) : Prop where
  name_ne_nil : constant.name.toList ≠ []
  isRaised : IsRaised constant.value.toList

theorem wellFormed_of_constant? {operand : List Char} {constant : Constant}
    (h : Layout.constant? operand = some constant) (hoperand : IsRaised operand) :
    constant.WellFormed := by
  obtain ⟨⟨name, value⟩, hcut, hmade⟩ := Option.bind_eq_some_iff.mp h
  obtain ⟨c, -, -, rfl⟩ := eq_of_splitFirst? hcut
  dsimp only at hmade
  split at hmade
  · rename_i hvalid
    cases hmade
    refine ⟨?_, hoperand.subset ?_⟩
    · rw [String.toList_ofList]
      exact Label.ne_nil_of_isName (Bool.and_eq_true_iff.mp hvalid).1
    · rw [String.toList_ofList]
      exact List.Subset.trans (trim_subset value)
        (List.Subset.trans (List.subset_cons_self c value) (List.subset_append_right name _))
  · cases hmade

variable {constants : List Constant} {operand : List Char}

theorem mem_substitute {c : Char} (h : c ∈ substitute constants operand) :
    c ∈ operand ∨ ∃ constant ∈ constants, c ∈ constant.value.toList := by
  unfold substitute at h
  cases hfound : constants.findSome? fun constant => constant.replaceIn? operand with
  | none =>
    rw [hfound] at h
    exact .inl h
  | some replaced =>
    rw [hfound, Option.getD_some] at h
    obtain ⟨constant, hconstant, hreplaced⟩ := List.exists_of_findSome?_eq_some hfound
    obtain ⟨⟨before, rest⟩, hcut, rfl⟩ := Option.map_eq_some_iff.mp hreplaced
    rw [eq_of_splitAround? hcut]
    rcases List.mem_append.mp h with h | h
    · rcases List.mem_append.mp h with h | h
      · exact .inl (List.mem_append_left _ (List.mem_append_left _ h))
      · exact .inr ⟨constant, hconstant, h⟩
    · exact .inl (List.mem_append_right _ h)

theorem isRaised_substitute (hconstants : ∀ constant ∈ constants, constant.WellFormed)
    (hoperand : IsRaised operand) : IsRaised (substitute constants operand) := by
  intro c hc
  rcases mem_substitute hc with hc | ⟨constant, hconstant, hc⟩
  · exact hoperand c hc
  · exact (hconstants constant hconstant).isRaised c hc

theorem substitute_nil (hconstants : ∀ constant ∈ constants, constant.WellFormed) :
    substitute constants [] = [] := by
  have hnone : (constants.findSome? fun constant => constant.replaceIn? []) = none := by
    rw [List.findSome?_eq_none_iff]
    intro constant hconstant
    have hname := (hconstants constant hconstant).name_ne_nil
    simp [replaceIn?, splitAround?, splitAroundFrom?, hname]
  rw [substitute, hnone, Option.getD_none]

theorem wellFormed_inForce {definitions : List Constant}
    (h : ∀ constant ∈ definitions, constant.WellFormed) :
    ∀ constant ∈ inForce definitions, constant.WellFormed :=
  fun constant hconstant => h constant (mem_of_mem_inForce hconstant)

end Constant

/-! ### Expanded lines -/

namespace Statement

theorem exists_withOperand {text word operand : List Char}
    (h : splitWord (upper text) = (word, operand)) :
    (operand = [] ∧ withOperand text [] = text) ∨
      ∃ front gap, upper front = word ∧ gap ≠ [] ∧ (∀ c ∈ gap, isBlank c = true) ∧
        ∀ other, withOperand text other = front ++ (gap ++ other) := by
  rcases cut_of_splitWord h with ⟨hnone, hink⟩ | ⟨front, c, rest, rfl, hfront, hink, hc, -⟩
  · have hword : text.takeWhile (fun c => !isBlank c) = text := by
      rw [List.takeWhile_eq_self_iff]
      simpa using hink
    refine .inl ⟨hnone, ?_⟩
    rw [withOperand, hword]
    simp
  · have hword : (front ++ c :: rest).takeWhile (fun c => !isBlank c) = front := by
      rw [List.takeWhile_append_of_pos (by simpa using hink),
        List.takeWhile_cons_of_neg (by simp [hc]), List.append_nil]
    refine .inr ⟨front, (c :: rest).takeWhile isBlank, hfront, ?_, ?_, fun other => ?_⟩
    · rw [List.takeWhile_cons_of_pos hc]
      exact List.cons_ne_nil _ _
    · exact fun _ hgap => List.mem_takeWhile_imp hgap
    · rw [withOperand, hword, List.drop_left]

end Statement

namespace SourceLine

variable {line : List Char} {constants : List Constant}

theorem exists_expand (line : List Char) :
    ∃ lead body trail, IsCut line lead body trail ∧
      ∀ constants, expand constants line = lead ++ Statement.expand constants body ++ trail :=
  ⟨_, _, _, isCut_cut line, fun _ => rfl⟩

theorem isRaised_operand (h : '\n' ∉ line) : IsRaised (ofText line).statement.operand := by
  obtain ⟨lead, body, trail, ⟨rfl, -, -, hstatement⟩, -⟩ := exists_expand line
  have hbody : '\n' ∉ body := fun hc =>
    h (List.mem_append_left _ (List.mem_append_right _ hc))
  rw [hstatement]
  exact (isRaised_upper hbody).subset (Statement.operand_subset _)

theorem wellFormed_of_definition? {constant : Constant} (h : '\n' ∉ line)
    (hdefinition : (ofText line).statement.definition? = some constant) : constant.WellFormed := by
  have hoperand := isRaised_operand h
  generalize (ofText line).statement = statement at hdefinition hoperand
  cases statement with
  | constant word operand => exact Constant.wellFormed_of_constant? hdefinition hoperand
  | _ => cases hdefinition

theorem wellFormed_definitions {definitions : List Constant}
    (hformed : ∀ constant ∈ definitions, constant.WellFormed) (h : '\n' ∉ line) :
    ∀ constant ∈ definitions ++ (ofText line).statement.definition?.toList,
      constant.WellFormed := by
  refine List.forall_mem_append.mpr ⟨hformed, fun constant hconstant => ?_⟩
  exact wellFormed_of_definition? h (Option.mem_toList.mp hconstant)

theorem feed_notMem_expand (hconstants : ∀ constant ∈ constants, constant.WellFormed)
    (h : '\n' ∉ line) : '\n' ∉ expand constants line := by
  have hoperand := isRaised_operand h
  obtain ⟨lead, body, trail, ⟨rfl, -, -, hstatement⟩, hexpand⟩ := exists_expand line
  simp only [List.mem_append, not_or] at h
  obtain ⟨⟨hlead, hbody⟩, htrail⟩ := h
  have hmiddle : '\n' ∉ Statement.expand constants body := by
    rw [hstatement] at hoperand
    unfold Statement.expand
    cases hupper : Statement.ofUpper (upper body) with
    | constant word operand => exact List.not_mem_nil
    | instruction word operand =>
      rw [hupper] at hoperand
      have hnew : '\n' ∉ Constant.substitute constants operand := fun hc =>
        (Constant.isRaised_substitute hconstants hoperand _ hc).2 rfl
      have hword : '\n' ∉ body.takeWhile (fun c => !isBlank c) := fun hc =>
        hbody ((List.takeWhile_sublist _).subset hc)
      have hgap : '\n' ∉
          (body.drop (body.takeWhile fun c => !isBlank c).length).takeWhile isBlank := fun hc =>
        hbody (List.mem_of_mem_drop ((List.takeWhile_sublist _).subset hc))
      simp [Statement.withOperand, hword, hgap, hnew]
    | empty | origin | data => exact hbody
  rw [hexpand]
  simp [hlead, hmiddle, htrail]

theorem expand_eq_self
    (hdefinition : ∀ word operand, (ofText line).statement ≠ .constant word operand)
    (hinstruction : ∀ word operand, (ofText line).statement ≠ .instruction word operand) :
    expand constants line = line := by
  obtain ⟨lead, body, trail, ⟨hline, -, -, hstatement⟩, hexpand⟩ := exists_expand line
  rw [hstatement] at hdefinition hinstruction
  have hbody : Statement.expand constants body = body := by
    unfold Statement.expand
    split
    · exact absurd ‹_› (hdefinition _ _)
    · exact absurd ‹_› (hinstruction _ _)
    · rfl
  rw [hexpand, hbody, ← hline]

theorem ofText_expand_constant {label : Option (List Char)} {word operand : List Char}
    (h : ofText line = ⟨label, .constant word operand⟩) :
    ofText (expand constants line) = ⟨label, .empty⟩ := by
  obtain ⟨lead, body, trail, ⟨-, hopening, htrail, hstatement⟩, hexpand⟩ := exists_expand line
  rw [h] at hopening hstatement
  have hbody : Statement.expand constants body = [] := by
    rw [Statement.expand, ← hstatement]
  have hcolon : ':' ∉ stripComment trail := fun hc =>
    (isMark_eq_false_iff.mp (isMark_of_isBlank (htrail _ hc))).1 rfl
  obtain ⟨blanks, hblanks, hsplit⟩ := hopening.splitLabel hcolon
  have hnone : Statement.ofText (blanks ++ stripComment trail) = .empty := by
    rw [Statement.ofText, trim_of_blank (List.forall_mem_append.mpr ⟨hblanks, htrail⟩)]
    rfl
  rw [hexpand, hbody, List.append_nil, ofText, stripComment_append hopening.uncommented, hsplit]
  exact congrArg (SourceLine.mk label) hnone

/-- An instruction with the constants in its operand replaced is read as the instruction was with
the constants in force. -/
theorem exists_ofText_expand {label : Option (List Char)} {word operand : List Char}
    {operation : Operation} (hword : Operation.ofMnemonic? word = some operation)
    (h : ofText line = ⟨label, .instruction word operand⟩) (hfeed : '\n' ∉ line)
    (hconstants : ∀ constant ∈ constants, constant.WellFormed)
    (hadmits : ∀ c ∈ removeBlanks (Constant.substitute constants operand),
      Operand.admits c = true) :
    ∃ other, ofText (expand constants line) = ⟨label, .instruction word other⟩ ∧
      removeBlanks other = removeBlanks (Constant.substitute constants operand) := by
  have hoperand := isRaised_operand hfeed
  rw [h] at hoperand
  obtain ⟨lead, body, trail, ⟨hline, hopening, htrail, hstatement⟩, hexpand⟩ := exists_expand line
  rw [h] at hopening hstatement
  have hbody : Statement.expand constants body =
      Statement.withOperand body (Constant.substitute constants operand) := by
    rw [Statement.expand, ← hstatement]
  rw [hexpand, hbody]
  rcases Statement.exists_withOperand (Statement.splitWord_of_ofUpper hstatement.symm) with
    ⟨rfl, hsame⟩ | ⟨front, gap, rfl, hgap, hblank, hcut⟩
  · rw [Constant.substitute_nil hconstants, hsame, ← hline]
    exact ⟨[], h, rfl⟩
  · -- the new operand is its own upper case, so that reading it once more does not change it
    have hupper : upper (Constant.substitute constants operand) =
        Constant.substitute constants operand := by
      apply upper_of_upperChar
      intro c hc
      by_cases hink : isBlank c = true
      · exact upperChar_of_isBlank hink
      · have hadmitted := hadmits c (List.mem_filter.mpr ⟨hc, by simpa using hink⟩)
        rw [upperChar, if_pos (Operand.lt_of_admits hadmitted),
          (Constant.isRaised_substitute hconstants hoperand c hc).1]
    have hsquash : squash (Constant.substitute constants operand) =
        removeBlanks (Constant.substitute constants operand) := by
      rw [squash, hupper]
    let around : Surroundings :=
      ⟨label, operation, lead, front, gap, trail, hopening, hword, hgap, hblank, htrail⟩
    have hmarks : ∀ c ∈ squash (Constant.substitute constants operand), isMark c = false := by
      rw [hsquash]
      exact fun c hc => isMark_of_apart (by decide) (hadmits c hc)
    obtain ⟨other, hother, hletters⟩ := around.ofText_line hmarks
    rw [hcut]
    exact ⟨other, hother, hletters.trans hsquash⟩

end SourceLine

theorem Layout.admits_of_readOperand {operation : Operation} {word text : List Char}
    {read : Operand} (h : readOperand operation word text = .ok read) : ∀ c ∈ text, Operand.admits c = true := by
  rw [readOperand_eq_ok_iff] at h
  split at h
  · exact Operand.admits_of_classifyBranch h
  · exact Operand.admits_of_classify h

/-! ### Two layouts side by side -/

def Record.isConstant (record : Record) : Bool :=
  match record.content with
  | .constant _ _ => true
  | _ => false

/-- Whether a layout is another one without its constants, which some definitions have made. -/
structure Layout.Expands (definitions : List Constant) (layout other : Layout) : Prop where
  cursor : other.cursor = layout.cursor
  inForce : layout.constants = Constant.inForce definitions
  constants : other.constants = []
  symbols : other.symbols = layout.symbols
  records : other.records.toList = layout.records.toList.filter fun record => !record.isConstant

namespace Layout.Expands

variable {definitions : List Constant} {layout other after : Layout} {line : Nat}

theorem put (h : Expands definitions layout other) {operation operand : List Char} {size : UInt16}
    {content : Content}
    (hplain : (layout.nextRecord line operation operand size content).isConstant = false) :
    Expands definitions (layout.put line operation operand size content)
      (other.put line operation operand size content) where
  cursor := congrArg (· + size) h.cursor
  inForce := h.inForce
  constants := h.constants
  symbols := h.symbols
  records := by
    have hrecord : other.nextRecord line operation operand size content =
        layout.nextRecord line operation operand size content := by
      rw [nextRecord, nextRecord, h.cursor]
    have hkept : [layout.nextRecord line operation operand size content].filter
        (fun record => !record.isConstant) =
          [layout.nextRecord line operation operand size content] := by
      rw [List.filter_cons_of_pos (by simp [hplain]), List.filter_nil]
    simp only [nextRecord] at hrecord hkept
    simp only [Layout.put, Array.toList_push, List.filter_append, h.records, hrecord, hkept]

theorem withLabel (h : Expands definitions layout other) (name : String) :
    Expands definitions (layout.withLabel line name) (other.withLabel line name) := by
  have hdeclared (symbols : SymbolTable) :
      Expands definitions { layout with symbols } { other with symbols } :=
    ⟨h.cursor, h.inForce, h.constants, rfl, h.records⟩
  have hsymbol : Symbol.mk name other.cursor line = ⟨name, layout.cursor, line⟩ := by rw [h.cursor]
  rw [Layout.withLabel, Layout.withLabel, h.symbols, hsymbol]
  apply (hdeclared _).put
  rfl

theorem define (h : Expands definitions layout other) (word operand : List Char)
    (constant : Constant) :
    Expands (definitions ++ [constant])
      ({ layout with constants := constant.define layout.constants }.put line word operand 0
        (.constant constant.name constant.value)) other where
  cursor := by simp [Layout.put, h.cursor]
  inForce := by rw [Layout.put, h.inForce, Constant.define_inForce]
  constants := h.constants
  symbols := h.symbols
  records := by simp [Layout.put, h.records, Record.isConstant]

theorem executes (h : Expands definitions layout other)
    (hformed : ∀ constant ∈ definitions, constant.WellFormed) {text : List Char}
    (hfeed : '\n' ∉ text)
    (hexecutes : layout.Executes line (SourceLine.ofText text).statement after) :
    ∃ after', other.Executes line
        (SourceLine.ofText (SourceLine.expand (Constant.inForce definitions) text)).statement after' ∧
      (SourceLine.ofText (SourceLine.expand (Constant.inForce definitions) text)).label =
        (SourceLine.ofText text).label ∧
      Expands (definitions ++ (SourceLine.ofText text).statement.definition?.toList) after
        after' := by
  cases hread : SourceLine.ofText text with
  | mk label statement =>
    rw [hread] at hexecutes
    have hkept (hdefinition : ∀ word operand, statement ≠ .constant word operand)
        (hinstruction : ∀ word operand, statement ≠ .instruction word operand) :
        SourceLine.ofText (SourceLine.expand (Constant.inForce definitions) text) =
          ⟨label, statement⟩ := by
      rw [SourceLine.expand_eq_self (by rwa [hread]) (by rwa [hread]), hread]
    cases hexecutes with
    | empty =>
      rw [hkept (by simp) (by simp), Statement.definition?_eq_none (by simp), Option.toList_none,
        List.append_nil]
      exact ⟨other, .empty, rfl, h⟩
    | @origin word operand address hnumber =>
      have hmoved : Expands definitions { layout with cursor := address }
          { other with cursor := address } :=
        ⟨rfl, h.inForce, h.constants, h.symbols, h.records⟩
      rw [hkept (by simp) (by simp), Statement.definition?_eq_none (by simp), Option.toList_none,
        List.append_nil]
      exact ⟨_, .origin hnumber, rfl, hmoved.put rfl⟩
    | data hbytes =>
      rw [hkept (by simp) (by simp), Statement.definition?_eq_none (by simp), Option.toList_none,
        List.append_nil]
      exact ⟨_, .data hbytes, rfl, h.put rfl⟩
    | constant hconstant =>
      rw [SourceLine.ofText_expand_constant hread, Statement.definition?, hconstant,
        Option.toList_some]
      exact ⟨other, .empty, rfl, h.define ..⟩
    | @instruction word operand operation read argument opcode hword hoperand hargument hopcode =>
      rw [h.inForce] at hoperand ⊢
      obtain ⟨rest, hrest, hletters⟩ := SourceLine.exists_ofText_expand hword hread hfeed
        (Constant.wellFormed_inForce hformed) (admits_of_readOperand hoperand)
      have hletters' : removeBlanks (Constant.substitute other.constants rest) =
          removeBlanks (Constant.substitute (Constant.inForce definitions) operand) := by
        rw [h.constants, ← hletters]
        rfl
      rw [hrest, Statement.definition?_eq_none (by simp), Option.toList_none, List.append_nil,
        ← hletters']
      rw [← hletters'] at hoperand
      rw [← h.cursor] at hargument
      exact ⟨_, .instruction hword hoperand hargument hopcode, rfl, h.put rfl⟩

theorem addLine (h : Expands definitions layout other)
    (hformed : ∀ constant ∈ definitions, constant.WellFormed) {text : List Char}
    (hfeed : '\n' ∉ text) (hadd : layout.addLine text line = .ok after) :
    ∃ after', other.addLine (SourceLine.expand (Constant.inForce definitions) text) line =
        .ok after' ∧
      Expands (definitions ++ (SourceLine.ofText text).statement.definition?.toList) after
        after' := by
  obtain ⟨middle, hmiddle, hexecutes⟩ := addLine_eq_ok_iff.mp hadd
  obtain ⟨middle', hmiddle', hexpands⟩ :=
    exists_declared h h.symbols (fun name => h.withLabel name) hmiddle
  obtain ⟨after', hexecutes', hlabel, hafter⟩ := hexpands.executes hformed hfeed hexecutes
  exact ⟨after', addLine_eq_ok_iff.mpr ⟨middle', by rwa [hlabel], hexecutes'⟩, hafter⟩

theorem addLines {lines : List (List Char)} (h : Expands definitions layout other)
    (hformed : ∀ constant ∈ definitions, constant.WellFormed) (hfeed : ∀ text ∈ lines, '\n' ∉ text)
    {number : Nat} (hadd : layout.addLines (lines.zipIdx number) = .ok after) :
    ∃ defined after', other.addLines ((expandLines definitions lines).zipIdx number) = .ok after' ∧
      Expands defined after after' := by
  induction lines generalizing definitions layout other number with
  | nil =>
    obtain rfl := pure_eq_ok_iff.mp hadd
    exact ⟨definitions, other, rfl, h⟩
  | cons text rest ih =>
    rw [List.zipIdx_cons, Layout.addLines, List.foldlM_cons, bind_eq_ok_iff] at hadd
    obtain ⟨middle, hmiddle, hadd⟩ := hadd
    obtain ⟨hfirst, hrest⟩ := List.forall_mem_cons.mp hfeed
    obtain ⟨middle', hmiddle', hexpands⟩ := h.addLine hformed hfirst hmiddle
    obtain ⟨defined, after', hadd', hafter⟩ :=
      ih hexpands (SourceLine.wellFormed_definitions hformed hfirst) hrest hadd
    refine ⟨defined, after', ?_, hafter⟩
    rw [expandLines, List.zipIdx_cons, Layout.addLines, List.foldlM_cons, bind_eq_ok_iff]
    exact ⟨middle', hmiddle', hadd'⟩

end Layout.Expands

theorem exists_filter_bytes {symbols : SymbolTable} {records : List Record}
    {chunks : List (List UInt8)}
    (h : List.Forall₂ (fun record chunk => record.bytes symbols = .ok chunk) records chunks) :
    ∃ kept, List.Forall₂ (fun record chunk => record.bytes symbols = .ok chunk)
        (records.filter fun record => !record.isConstant) kept ∧ kept.flatten = chunks.flatten := by
  induction h with
  | nil => exact ⟨[], .nil, rfl⟩
  | @cons record chunk records chunks hfirst hrest ih =>
    obtain ⟨kept, hkept, hflatten⟩ := ih
    cases hconstant : record.isConstant with
    | false =>
      rw [List.filter_cons_of_pos (by simp [hconstant])]
      exact ⟨chunk :: kept, .cons hfirst hkept, by simp only [List.flatten_cons, hflatten]⟩
    | true =>
      have hnothing : chunk = [] := by
        unfold Record.isConstant at hconstant
        split at hconstant
        · rename_i hcontent
          simpa [Record.bytes, hcontent, eq_comm] using hfirst
        · cases hconstant
      rw [List.filter_cons_of_neg (by simp [hconstant])]
      exact ⟨kept, hkept, by rw [hflatten, hnothing, List.flatten_cons, List.nil_append]⟩

theorem expandLines_ne_nil {definitions : List Constant} {lines : List (List Char)}
    (h : lines ≠ []) : expandLines definitions lines ≠ [] := by
  cases lines with
  | nil => exact absurd rfl h
  | cons line rest => exact List.cons_ne_nil _ _

theorem feed_notMem_expandLines {definitions : List Constant} {lines : List (List Char)}
    (hformed : ∀ constant ∈ definitions, constant.WellFormed)
    (hfeed : ∀ line ∈ lines, '\n' ∉ line) :
    ∀ line ∈ expandLines definitions lines, '\n' ∉ line := by
  induction lines generalizing definitions with
  | nil => simp [expandLines]
  | cons line rest ih =>
    obtain ⟨hfirst, hrest⟩ := List.forall_mem_cons.mp hfeed
    exact List.forall_mem_cons.mpr
      ⟨SourceLine.feed_notMem_expand (Constant.wellFormed_inForce hformed) hfirst,
        ih (SourceLine.wellFormed_definitions hformed hfirst) hrest⟩

/-- A source assembles to the same code without its constants. -/
theorem assemble_expanded {base : UInt16} {source : String} {output : List UInt8}
    (h : (Assembler.mk base).assemble source = .ok output) :
    (Assembler.mk base).assemble (expandConstants source) = .ok output := by
  have hfeed : ∀ line ∈ source.toList.splitOn '\n', '\n' ∉ line := fun _ hline =>
    feed_notMem_of_mem_splitOn hline
  have hformed : ∀ constant ∈ ([] : List Constant), constant.WellFormed := by simp
  have hlines : (['\n'].intercalate (expandLines [] (source.toList.splitOn '\n'))).splitOn '\n' =
      expandLines [] (source.toList.splitOn '\n') :=
    List.splitOn_intercalate '\n' (feed_notMem_expandLines hformed hfeed)
      (expandLines_ne_nil (List.splitOn_ne_nil '\n' source.toList))
  rw [← String.ofList_toList (s := source), assemble_ofList, assembleLines, bind_eq_ok_iff] at h
  obtain ⟨layout, hlayout, hcode⟩ := h
  have hstart : Layout.Expands [] { cursor := base } { cursor := base } :=
    ⟨rfl, rfl, rfl, rfl, rfl⟩
  obtain ⟨defined, other, hother, hexpands⟩ := hstart.addLines hformed hfeed hlayout
  obtain ⟨chunks, hchunks, rfl⟩ := Program.code_eq_ok_iff.mp hcode
  obtain ⟨kept, hkept, hflatten⟩ := exists_filter_bytes hchunks
  rw [expandConstants, assemble_ofList, hlines, assembleLines, bind_eq_ok_iff]
  refine ⟨other, hother, Program.code_eq_ok_iff.mpr ⟨kept, ?_, hflatten.symm⟩⟩
  rw [hexpands.records, hexpands.symbols]
  exact hkept

theorem assemble_expanded_redefined :
    (Assembler.mk 0x0600).assemble
        "DEFINE X $0200 ;'\nDEF XY $10\nTOP: LDA X,Y\r\nX: define x y\nSTA $20,X ;X" =
      .ok [0xB9, 0x00, 0x02, 0x99, 0x20, 0x00] ∧
    expandConstants
        "DEFINE X $0200 ;'\nDEF XY $10\nTOP: LDA X,Y\r\nX: define x y\nSTA $20,X ;X" =
      " ;'\n\nTOP: LDA $0200,Y\r\nX: \nSTA $20,Y ;X" ∧
    (Assembler.mk 0x0600).assemble
        (expandConstants
          "DEFINE X $0200 ;'\nDEF XY $10\nTOP: LDA X,Y\r\nX: define x y\nSTA $20,X ;X") =
      .ok [0xB9, 0x00, 0x02, 0x99, 0x20, 0x00] := by
  have h : (Assembler.mk 0x0600).assemble
        "DEFINE X $0200 ;'\nDEF XY $10\nTOP: LDA X,Y\r\nX: define x y\nSTA $20,X ;X" =
      .ok [0xB9, 0x00, 0x02, 0x99, 0x20, 0x00] := by
    decide +kernel
  exact ⟨h, by decide +kernel, assemble_expanded h⟩

end Assembly
end Nmos6502
