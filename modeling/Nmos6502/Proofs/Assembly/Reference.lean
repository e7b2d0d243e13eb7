import Nmos6502.Proofs.Assembly.InstructionLine
import Nmos6502.Proofs.Assembly.Lines

set_option autoImplicit false

namespace Nmos6502

inductive Reference where
  | address (index : Option IndexRegister)
  | half (selector : ByteSelector)
  deriving DecidableEq

namespace Reference

open Operand Assembly Assembly.Layout

def front : Reference → List Char
  | address _ => []
  | half selector => ['#', selectorSign selector]

def back : Reference → List Char
  | address index => indexLetters index
  | half _ => []

def letters (reference : Reference) (target : List Char) : List Char :=
  reference.front ++ target ++ reference.back

/-- The zero-page form that is read for a small number. -/
def shortForm? : Reference → Option OperandForm
  | address index => some (indexedForm .zeroPage .zeroPageX .zeroPageY index)
  | half _ => none

def ofLabel (operation : Operation) (name : String) : Reference → Operand
  | address index =>
    if operation.isBranch then .branch (.label name) else .absolute (.label name) index
  | half selector => .addressByte selector name

def ofNumber (operation : Operation) (value : UInt16) : Reference → Operand
  | address index =>
    if operation.isBranch then .branch (.number value) else .ofNumber value index
  | half selector => .immediate (selector.select value)

variable {reference : Reference} {operation : Operation} {word name : List Char}

theorem isMark_front (reference : Reference) : ∀ c ∈ reference.front, Text.isMark c = false := by
  have all : reference.front.all (fun c => !Text.isMark c) = true := by
    rcases reference with index | (- | -) <;> rfl
  simpa using List.all_eq_true.mp all

theorem isMark_back (reference : Reference) : ∀ c ∈ reference.back, Text.isMark c = false := by
  have all : reference.back.all (fun c => !Text.isMark c) = true := by
    rcases reference with (- | (- | -)) | selector <;> rfl
  simpa using List.all_eq_true.mp all

theorem ofBare?_letters (h : Label.isName name = true)
    (hletter : reference = .address none → name ≠ ['A']) :
    ofBare? (reference.letters name) = none := by
  have hsome := Label.ne_nil_of_isName h
  have hlength := List.length_pos_of_ne_nil hsome
  refine ofBare?_eq_none (by simp [letters, hsome]) fun hone => ?_
  have hshort := congrArg List.length hone
  cases reference with
  | address index =>
    rcases index with - | (- | -)
    · exact hletter rfl (by simpa [letters, front, back, indexLetters] using hone)
    · simp [letters, front, back, indexLetters] at hshort
    · simp [letters, front, back, indexLetters] at hshort
  | half selector => simp [letters, front, back] at hshort

theorem target?_of_classifyBranch {text : List Char} {read : Operand}
    (hbare : ofBare? text = none) (h : classifyBranch text = some read) :
    ∃ target, target? text = some target ∧ read = .branch target := by
  rw [classifyBranch, hbare, Option.none_or, ofBranch?] at h
  obtain ⟨target, htarget, rfl⟩ := Option.map_eq_some_iff.mp h
  exact ⟨target, htarget, rfl⟩

theorem eq_address_of_target? {target : Target}
    (h : target? (reference.letters name) = some target) : reference = .address none := by
  have hcomma := comma_notMem_of_target? h
  have hsign := number_sign_notMem_of_target? h
  cases reference with
  | half selector => simp [letters, front] at hsign
  | address index =>
    rcases index with - | (- | -)
    · rfl
    · simp [letters, back, indexLetters] at hcomma
    · simp [letters, back, indexLetters] at hcomma

theorem readOperand_label (h : Label.isName name = true)
    (hletter : reference = .address none → name ≠ ['A']) {read : Operand}
    (hread : readOperand operation word (reference.letters name) = .ok read) :
    (operation.isBranch = true → reference = .address none) ∧
      read = reference.ofLabel operation (String.ofList name) := by
  rw [readOperand_eq_ok_iff] at hread
  split at hread
  · rename_i hbranch
    obtain ⟨target, htarget, rfl⟩ := target?_of_classifyBranch (ofBare?_letters h hletter) hread
    obtain rfl := eq_address_of_target? htarget
    rw [letters, front, back, indexLetters, List.append_nil, List.nil_append,
      target?_of_isName h] at htarget
    cases htarget
    exact ⟨fun _ => rfl, by simp [ofLabel, hbranch]⟩
  · rename_i hbranch
    refine ⟨fun h => absurd h hbranch, ?_⟩
    cases reference with
    | address index =>
      rw [letters, front, back, List.nil_append,
        classify_of_spells (.label h fun hnone => hletter (by rw [hnone]))] at hread
      cases hread
      simp [ofLabel, hbranch]
    | half selector =>
      rw [letters, front, back, List.append_nil] at hread
      cases (classify_of_spells (.addressByte selector h)).symm.trans hread
      rfl

theorem readOperand_number (hbranch : operation.isBranch = true → reference = .address none)
    (value : UInt16) :
    readOperand operation word (reference.letters ('$' :: Hex.wordDigits value)) =
      .ok (reference.ofNumber operation value) := by
  have hvalue := Numeral.value?_wordDigits value
  rw [readOperand_eq_ok_iff]
  split
  · rename_i hisBranch
    obtain rfl := hbranch hisBranch
    simp [letters, front, back, indexLetters, ofNumber, hisBranch, classifyBranch, ofBare?,
      ofBranch?, target?, Label.isName, Label.startsName, hvalue]
  · rename_i hisBranch
    cases reference with
    | address index =>
      rw [letters, front, back, List.nil_append, ofNumber, if_neg hisBranch]
      exact classify_of_spells (spells_ofNumber hvalue index)
    | half selector =>
      rw [letters, front, back, List.append_nil]
      exact classify_of_spells (.half selector hvalue)

/-- With a number in place of the label, an instruction has the same opcode, unless the number is
small and the operation takes it for an address in page zero. -/
theorem form_ofNumber {label : String} {value : UInt16}
    (hopcode : operation.supports
      (operation.assembledForm (reference.ofLabel operation label).form) = true)
    (hlong : ∀ short ∈ reference.shortForm?, value ≤ 0xFF → operation.supports short = false) :
    operation.assembledForm (reference.ofNumber operation value).form =
      operation.assembledForm (reference.ofLabel operation label).form := by
  cases reference with
  | half selector => rfl
  | address index =>
    by_cases hbranch : operation.isBranch = true
    · simp only [ofLabel, ofNumber, hbranch, if_true]
      rfl
    · simp only [ofLabel, ofNumber, hbranch, Bool.false_eq_true, if_false] at hopcode ⊢
      have hwide : operation.assembledForm
          (Operand.absolute (.label label) index).form =
            indexedForm .absolute .absoluteX .absoluteY index := by
        rcases index with - | (- | -) <;> rfl
      rw [hwide] at hopcode
      rw [hwide]
      exact assembledForm_ofNumber hopcode (hlong _ rfl)

def label? : Operand → Option String
  | .addressByte _ label => some label
  | .absolute (.label label) _ => some label
  | .branch (.label label) => some label
  | _ => none

theorem isName_of_target? {text : List Char} {label : String}
    (h : target? text = some (.label label)) :
    Label.isName text = true ∧ String.ofList text = label := by
  rw [target?] at h
  split at h
  · rename_i hname
    cases h
    exact ⟨hname, rfl⟩
  · obtain ⟨value, -, hvalue⟩ := Option.map_eq_some_iff.mp h
    cases hvalue

theorem exists_letters {text : List Char} {read : Operand} {label : String}
    (hread : readOperand operation word text = .ok read) (hlabel : label? read = some label) :
    ∃ (reference : Reference) (name : List Char), text = reference.letters name ∧
      Label.isName name = true ∧ String.ofList name = label ∧
        (reference = .address none → name ≠ ['A']) := by
  rw [readOperand_eq_ok_iff] at hread
  split at hread
  · rcases Option.or_eq_some_iff.mp hread with hbare | ⟨hnone, hbranch⟩
    · unfold ofBare? at hbare
      split at hbare <;> cases hbare <;> cases hlabel
    · obtain ⟨target, htarget, rfl⟩ := Option.map_eq_some_iff.mp hbranch
      cases target with
      | number value => cases hlabel
      | label found =>
        cases hlabel
        obtain ⟨hname, rfl⟩ := isName_of_target? htarget
        refine ⟨.address none, text, by simp [letters, front, back, indexLetters], hname, rfl, ?_⟩
        rintro - rfl
        cases hnone
  · cases spells_of_classify hread with
    | @addressByte name selector hname =>
      cases hlabel
      refine ⟨.half selector, name, ?_, hname, rfl, by simp⟩
      rw [letters, front, back, List.append_nil]
      rfl
    | @label name index hname hletter =>
      cases hlabel
      exact ⟨.address index, name, rfl, hname, rfl, fun hplain => hletter (by cases hplain; rfl)⟩
    | _ => cases hlabel

theorem exists_cut {text : List Char} (h : Text.squash text = reference.letters name) :
    ∃ before middle after, text = before ++ middle ++ after ∧
      Text.squash before = reference.front ∧ Text.squash middle = name ∧
        Text.squash after = reference.back := by
  cases reference with
  | address index =>
    rcases index with - | (- | -)
    · exact ⟨[], text, [], by simp, rfl, by simpa [letters, front, back, indexLetters] using h, rfl⟩
    all_goals
      obtain ⟨s, t, rfl, hs, ht⟩ := Text.exists_cut_of_squash (d := ',') rfl h
      exact ⟨[], s, ',' :: t, by simp, rfl, hs, by rw [Text.squash_cons rfl rfl, ht]; rfl⟩
  | half selector =>
    have hsharp : Text.squash text = [] ++ '#' :: (selectorSign selector :: name) := by
      rw [h, letters, front, back, List.append_nil]
      rfl
    obtain ⟨s, t, rfl, hs, ht⟩ := Text.exists_cut_of_squash rfl hsharp
    have hsign : Text.isSign (selectorSign selector) = true ∧
        Text.isBlank (selectorSign selector) = false := by
      cases selector <;> decide
    rw [← List.nil_append (selectorSign selector :: name)] at ht
    obtain ⟨s', t', rfl, hs', ht'⟩ := Text.exists_cut_of_squash hsign.1 ht
    refine ⟨s ++ '#' :: s' ++ [selectorSign selector], t', [], by simp, ?_, ht', rfl⟩
    rw [Text.squash_append, Text.squash_append, hs, Text.squash_cons rfl rfl, hs',
      Text.squash_cons hsign.1 hsign.2]
    rfl

end Reference
end Nmos6502
