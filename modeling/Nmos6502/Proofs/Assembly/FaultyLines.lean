import Nmos6502.Proofs.Assembly.DataItems
import Nmos6502.Proofs.Assembly.OpcodeChoice
import Nmos6502.Proofs.Assembly.Relocation
import Nmos6502.Proofs.OperandGrammar

set_option autoImplicit false

namespace Nmos6502.Assembly

open Outcome

def Cause.isSyntaxError : Cause → Bool
  | unknownMnemonic _ | invalidOperand _ _ | unsupportedForm _ _ | immediate _ => true
  | invalidData _ | invalidOrigin _ | invalidConstant _ => true
  | duplicateLabel _ _ | undefinedLabel _ | branchOutOfRange _ => false

namespace Layout

variable {layout after : Layout} {line : Nat} {error : Error} {cause : Cause}

/-- Whether a statement is a branch to a number that no signed byte leads to, and the cause says
so. -/
inductive Strays (layout : Layout) : Statement → Cause → Prop
  | branch {word operand : List Char} {operation : Operation} {target : UInt16}
      (hword : Operation.ofMnemonic? word = some operation) (hbranch : operation.isBranch = true)
      (hnumber : Numeral.value? (layout.operandText operand) = some target)
      (hfar : ¬ IsNear (layout.cursor + 2) target) :
      Strays layout (.instruction word operand)
        (.branchOutOfRange (signedDistance (layout.cursor + 2) target))

theorem isSyntaxError_of_readOperand {operation : Operation} {word text : List Char}
    (h : readOperand operation word text = .error cause) : cause.isSyntaxError = true := by
  unfold readOperand at h
  dsimp only at h
  split at h <;> cases h <;> rfl

theorem readOperand_number_iff {operation : Operation} {word text : List Char} {target : UInt16} :
    readOperand operation word text = .ok (.branch (.number target)) ↔
      operation.isBranch = true ∧ Numeral.value? text = some target := by
  constructor
  · intro h
    obtain ⟨hbranch, htarget⟩ := readOperand_eq_branch h
    refine ⟨hbranch, ?_⟩
    rw [Operand.target?] at htarget
    split at htarget
    · cases htarget
    · simpa using htarget
  · rintro ⟨hbranch, hnumber⟩
    rw [readOperand_eq_ok_iff, if_pos hbranch]
    exact Operand.classifyBranch_target (Operand.target?_of_value? hnumber)
      (Operand.ne_letter_of_value? hnumber)

theorem putInstruction_eq_error {word operand : List Char}
    (h : layout.putInstruction line word operand = .error cause) :
    cause.isSyntaxError = true ∨ layout.Strays (.instruction word operand) cause := by
  unfold putInstruction at h
  cases hword : Operation.ofMnemonic? word with
  | none =>
    rw [hword] at h
    cases h
    exact .inl rfl
  | some operation =>
    simp only [hword, bind_eq_error_iff] at h
    rcases h with hread | ⟨read, hread, hargument | ⟨argument, -, hopcode⟩⟩
    · exact .inl (isSyntaxError_of_readOperand hread)
    · by_cases hnear : InReach layout.cursor read
      · obtain ⟨argument, hsome⟩ := exists_argument hnear
        cases hsome.symm.trans hargument
      · obtain ⟨target, rfl, hfar⟩ := argument_of_not_inReach hnear
        cases hargument.symm.trans hfar
        obtain ⟨hbranch, hnumber⟩ := readOperand_number_iff.mp hread
        exact .inr (.branch hword hbranch hnumber hnear)
    · split at hopcode
      · cases hopcode
        exact .inl rfl
      · cases hopcode

theorem execute_eq_error {statement : Statement}
    (h : layout.execute line statement = .error cause) :
    cause.isSyntaxError = true ∨ layout.Strays statement cause := by
  cases statement with
  | instruction word operand => exact putInstruction_eq_error h
  | empty => cases h
  | origin word operand =>
    rw [execute, setOrigin] at h
    split at h <;> cases h
    exact .inl rfl
  | data word operand =>
    rcases bind_eq_error_iff.mp h with hbytes | ⟨bytes, -, hput⟩
    · obtain ⟨-, -, -, -, -, -, rfl⟩ := Data.bytes_eq_error_iff.mp hbytes
      exact .inl rfl
    · cases hput
  | constant word operand =>
    rw [execute, define] at h
    split at h <;> cases h
    exact .inl rfl

theorem Strays.execute {statement : Statement} (h : layout.Strays statement cause) :
    layout.execute line statement = .error cause := by
  obtain ⟨hword, hbranch, hnumber, hfar⟩ := h
  obtain ⟨target, htarget, hfails⟩ := @putInstruction_of_not_inReach layout line _ _ _ _
    hword (readOperand_number_iff.mpr ⟨hbranch, hnumber⟩) hfar
  cases htarget
  exact hfails

theorem declare_eq_error_iff {name : List Char} :
    layout.declare line name = .error cause ↔
      ∃ first, layout.symbols.lookup? (String.ofList name) = some first ∧
        cause = .duplicateLabel first.name first.line := by
  unfold declare SymbolTable.add?
  cases layout.symbols.lookup? (String.ofList name) with
  | none => simp
  | some first => simp [eq_comm]

theorem addLine_eq_error_iff {text : List Char} :
    layout.addLine text line = .error error ↔ error.line = line ∧
      ((∃ name ∈ (SourceLine.ofText text).label, layout.declare line name = .error error.cause) ∨
        ∃ middle, (match (SourceLine.ofText text).label with
            | none => middle = layout
            | some name => layout.declare line name = .ok middle) ∧
          middle.execute line (SourceLine.ofText text).statement = .error error.cause) := by
  have hcause : layout.addLine text line = .error error ↔ error.line = line ∧
      layout.addSourceLine line (SourceLine.ofText text) = .error error.cause := by
    rw [addLine, mapError_eq_error_iff]
    constructor
    · rintro ⟨cause, hfails, rfl⟩
      exact ⟨rfl, hfails⟩
    · rintro ⟨rfl, hfails⟩
      exact ⟨error.cause, hfails, rfl⟩
  rw [hcause, addSourceLine]
  cases (SourceLine.ofText text).label with
  | none => simp
  | some name => simp [bind_eq_error_iff]

/-- The lines above the first faulty one are laid out. -/
theorem addLines_eq_error_iff {lines : List (List Char)} {number : Nat} :
    layout.addLines (lines.zipIdx number) = .error error ↔
      ∃ before text behind middle, lines = before ++ text :: behind ∧
        layout.addLines (before.zipIdx number) = .ok middle ∧
          middle.addLine text (number + before.length) = .error error := by
  rw [addLines, foldlM_eq_error_iff]
  constructor
  · rintro ⟨above, numbered, below, middle, hlines, habove, hline⟩
    obtain ⟨before, rest, rfl, rfl, hrest⟩ := List.zipIdx_eq_append_iff.mp hlines
    obtain ⟨text, behind, rfl, rfl, -⟩ := List.zipIdx_eq_cons_iff.mp hrest.symm
    exact ⟨before, text, behind, middle, rfl, habove, hline⟩
  · rintro ⟨before, text, behind, middle, rfl, habove, hline⟩
    rw [List.zipIdx_append, List.zipIdx_cons]
    exact ⟨_, _, _, middle, rfl, habove, hline⟩

theorem addLines_append_eq_ok_iff {before : List (List Char)} {text : List Char}
    {behind : List (List Char)} {number : Nat} :
    layout.addLines ((before ++ text :: behind).zipIdx number) = .ok after ↔
      ∃ above below, layout.addLines (before.zipIdx number) = .ok above ∧
        above.addLine text (number + before.length) = .ok below ∧
          below.addLines (behind.zipIdx (number + before.length + 1)) = .ok after := by
  simp only [addLines, List.zipIdx_append, List.zipIdx_cons, List.foldlM_append, List.foldlM_cons,
    bind_eq_ok_iff]
  exact exists_congr fun above => exists_and_left.symm

end Layout

variable {base : UInt16} {source : String} {error : Error}

theorem parse_eq_error_iff :
    (Assembler.mk base).parse source = .error error ↔
      ∃ before text behind layout, Text.lines source.toList = before ++ text :: behind ∧
        Layout.addLines { cursor := base } (before.zipIdx 1) = .ok layout ∧
          layout.addLine text (before.length + 1) = .error error := by
  have hfails : (Assembler.mk base).parse source = .error error ↔
      Layout.addLines { cursor := base } ((Text.lines source.toList).zipIdx 1) = .error error := by
    rw [Assembler.parse, Program.ofSource, bind_eq_error_iff]
    simp [pure, Except.pure]
  rw [hfails, Layout.addLines_eq_error_iff]
  simp only [Nat.add_comm 1]

end Nmos6502.Assembly
