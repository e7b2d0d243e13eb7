import Nmos6502.Assembler
import Nmos6502.Proofs.Outcome

set_option autoImplicit false

namespace Nmos6502.Assembly

open Outcome

namespace Layout

variable {layout after : Layout} {line : Nat}

def withLabel (layout : Layout) (line : Nat) (name : String) : Layout :=
  { layout with symbols := ⟨layout.symbols.entries.push ⟨name, layout.cursor, line⟩⟩ }.put line
    ['L', 'A', 'B', 'E', 'L'] [] 0 (.label name)

/-- What a statement makes of a layout when it succeeds. -/
inductive Executes (layout : Layout) (line : Nat) : Statement → Layout → Prop
  | empty : Executes layout line .empty layout
  | origin {word operand : List Char} {address : UInt16}
      (hnumber : Numeral.value? operand = some address) :
      Executes layout line (.origin word operand)
        ({ layout with cursor := address }.put line word operand 0 .origin)
  | data {word operand : List Char} {bytes : List UInt8}
      (hbytes : Data.bytes operand = .ok bytes) :
      Executes layout line (.data word operand)
        (layout.put line word operand (UInt16.ofNat bytes.length) (.data bytes))
  | constant {word operand : List Char} {constant : Constant}
      (hconstant : constant? operand = some constant) :
      Executes layout line (.constant word operand)
        ({ layout with constants := constant.define layout.constants }.put line word operand 0
          (.constant constant.name constant.value))
  | instruction {word operand : List Char} {operation : Operation} {read : Operand}
      {argument : Argument} {opcode : UInt8}
      (hword : Operation.ofMnemonic? word = some operation)
      (hread : readOperand operation word
        (Text.removeBlanks (Constant.substitute layout.constants operand)) = .ok read)
      (hargument : Layout.argument layout.cursor read = .ok argument)
      (hopcode : operation.opcode? (operation.assembledForm read.form) = some opcode) :
      Executes layout line (.instruction word operand)
        (layout.put line word (Text.removeBlanks (Constant.substitute layout.constants operand))
          (UInt16.ofNat (operation.assembledForm read.form).instructionSize)
          (.instruction opcode argument))

theorem readOperand_eq_ok_iff {operation : Operation} {word text : List Char} {read : Operand} :
    readOperand operation word text = .ok read ↔
      if operation.isBranch then Operand.classifyBranch text = some read
      else Operand.classify text = .ok (some read) := by
  unfold readOperand
  by_cases hbranch : operation.isBranch = true
  · simp only [hbranch, if_true]
    cases Operand.classifyBranch text <;> simp
  · simp only [hbranch]
    cases Operand.classify text with
    | error error => simp
    | ok found => cases found <;> simp

theorem declare_eq_ok_iff {name : List Char} :
    layout.declare line name = .ok after ↔
      layout.symbols.lookup? (String.ofList name) = none ∧
        after = layout.withLabel line (String.ofList name) := by
  unfold declare SymbolTable.add?
  cases layout.symbols.lookup? (String.ofList name) with
  | none => simp [withLabel, eq_comm]
  | some first => simp

theorem putInstruction_eq_ok {word operand : List Char}
    (h : layout.putInstruction line word operand = .ok after) :
    layout.Executes line (.instruction word operand) after := by
  unfold putInstruction at h
  cases hword : Operation.ofMnemonic? word with
  | none => simp [hword] at h
  | some operation =>
    simp only [hword, bind_eq_ok_iff] at h
    obtain ⟨read, hread, argument, hargument, h⟩ := h
    cases hopcode : operation.opcode? (operation.assembledForm read.form) with
    | none => simp [hopcode] at h
    | some opcode =>
      simp only [hopcode, Except.ok.injEq] at h
      exact h ▸ .instruction hword hread hargument hopcode

theorem execute_eq_ok {statement : Statement} (h : layout.execute line statement = .ok after) :
    layout.Executes line statement after := by
  cases statement with
  | empty =>
    cases h
    exact .empty
  | origin word operand =>
    rw [execute, setOrigin] at h
    split at h
    · cases h
    · rename_i address hnumber
      cases h
      exact .origin hnumber
  | data word operand =>
    simp only [execute, putData, bind_eq_ok_iff, pure_eq_ok_iff] at h
    obtain ⟨bytes, hbytes, rfl⟩ := h
    exact .data hbytes
  | constant word operand =>
    rw [execute, define] at h
    split at h
    · cases h
    · rename_i constant hconstant
      cases h
      exact .constant hconstant
  | instruction word operand => exact putInstruction_eq_ok h

theorem execute_eq_ok_iff {statement : Statement} :
    layout.execute line statement = .ok after ↔ layout.Executes line statement after := by
  refine ⟨execute_eq_ok, fun h => ?_⟩
  cases h with
  | empty => rfl
  | origin hnumber => simp [execute, setOrigin, hnumber]
  | data hbytes =>
    rw [execute, putData, bind_eq_ok_iff]
    exact ⟨_, hbytes, rfl⟩
  | constant hconstant => simp [execute, define, hconstant]
  | instruction hword hread hargument hopcode =>
    simp only [execute, putInstruction, hword, bind_eq_ok_iff]
    exact ⟨_, hread, _, hargument, by rw [hopcode]⟩

theorem addLine_eq_ok_iff {text : List Char} :
    layout.addLine text line = .ok after ↔
      ∃ middle, (match (SourceLine.ofText text).label with
        | none => middle = layout
        | some name => layout.declare line name = .ok middle) ∧
        middle.Executes line (SourceLine.ofText text).statement after := by
  rw [addLine, mapError_eq_ok_iff, addSourceLine]
  cases (SourceLine.ofText text).label with
  | none => simp [execute_eq_ok_iff]
  | some name => simp [execute_eq_ok_iff, bind_eq_ok_iff]

theorem exists_declared {R : Layout → Layout → Prop} {other : Layout} {label : Option (List Char)}
    (h : R layout other) (hsymbols : other.symbols = layout.symbols)
    (hlabel : ∀ name, R (layout.withLabel line name) (other.withLabel line name))
    (hdeclare : match label with
      | none => after = layout
      | some name => layout.declare line name = .ok after) :
    ∃ after', (match label with
      | none => after' = other
      | some name => other.declare line name = .ok after') ∧ R after after' := by
  cases label with
  | none => exact ⟨other, rfl, hdeclare ▸ h⟩
  | some name =>
    obtain ⟨hnew, rfl⟩ := declare_eq_ok_iff.mp hdeclare
    exact ⟨_, declare_eq_ok_iff.mpr ⟨hsymbols ▸ hnew, rfl⟩, hlabel _⟩

theorem addLines_invariant {Holds : Layout → Prop} {lines : List (List Char × Nat)}
    (hlabel : ∀ (before : Layout) (line : Nat) (name : String), Holds before →
      before.symbols.lookup? name = none → Holds (before.withLabel line name))
    (hstatement : ∀ numbered ∈ lines, ∀ before after : Layout, Holds before →
      before.Executes numbered.2 (SourceLine.ofText numbered.1).statement after → Holds after)
    (h : Holds layout) (hadd : layout.addLines lines = .ok after) : Holds after := by
  refine foldlM_invariant (fun before after numbered hmem hbefore hstep => ?_) h hadd
  obtain ⟨middle, hmiddle, hexecutes⟩ := addLine_eq_ok_iff.mp hstep
  refine hstatement numbered hmem middle after ?_ hexecutes
  cases hname : (SourceLine.ofText numbered.1).label with
  | none =>
    rw [hname] at hmiddle
    exact hmiddle ▸ hbefore
  | some name =>
    rw [hname] at hmiddle
    obtain ⟨hnew, rfl⟩ := declare_eq_ok_iff.mp hmiddle
    exact hlabel before numbered.2 _ hbefore hnew

theorem Executes.mem_records {statement : Statement} {record : Record}
    (hexecutes : layout.Executes line statement after) (h : record ∈ layout.records) :
    record ∈ after.records := by
  cases hexecutes with
  | empty => exact h
  | origin | data | constant | instruction => exact Array.mem_push_of_mem _ h

theorem mem_records_of_addLines {lines : List (List Char × Nat)} {record : Record}
    (h : record ∈ layout.records) (hadd : layout.addLines lines = .ok after) :
    record ∈ after.records :=
  @addLines_invariant layout after (fun layout => record ∈ layout.records) lines
    (fun _ _ _ hbefore _ => Array.mem_push_of_mem _ hbefore)
    (fun _ _ _ _ hbefore hexecutes => hexecutes.mem_records hbefore) h hadd

end Layout

theorem Program.ofSource_eq_ok_iff {base : UInt16} {source : List Char} {program : Program} :
    ofSource base source = .ok program ↔
      ∃ layout, Layout.addLines { cursor := base } ((Text.lines source).zipIdx 1) = .ok layout ∧
        program = ⟨layout.records.toList, layout.symbols, layout.constants⟩ := by
  rw [ofSource, bind_eq_ok_iff]
  exact exists_congr fun layout => and_congr_right' (pure_eq_ok_iff.trans eq_comm)

theorem Program.code_eq_ok_iff {program : Program} {code : List UInt8} :
    program.code = .ok code ↔
      ∃ chunks, List.Forall₂ (fun record chunk => record.bytes program.symbols = .ok chunk)
          program.records chunks ∧ code = chunks.flatten := by
  rw [Program.code, bind_eq_ok_iff]
  simp only [mapM_eq_ok_iff, chunk, mapError_eq_ok_iff]
  exact exists_congr fun chunks => and_congr_right' (pure_eq_ok_iff.trans eq_comm)

end Nmos6502.Assembly
