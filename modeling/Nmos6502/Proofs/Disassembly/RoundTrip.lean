import Nmos6502.Proofs.Assembly.Lines
import Nmos6502.Proofs.Disassembly.Decoding
import Nmos6502.Proofs.Disassembly.InstructionText

/-!
# Listings assembled again

The texts of a listing are a source that assembles to the bytes that were listed, as long as no
operand with a full address could have been written shorter. Main statement: `assemble_listing`.
-/

set_option autoImplicit false

namespace Nmos6502

namespace Disassembly

namespace Instruction

def operandWord (instruction : Instruction) : UInt16 :=
  word (instruction.operands.headD 0) (instruction.operands.getD 1 0)

/-- Whether a full address lies in page zero and the operation has the zero-page form beside it. -/
def hasShortForm (instruction : Instruction) : Bool :=
  match instruction.opcode.mode.zeroPageForm? with
  | some short =>
    decide (instruction.operandWord ≤ 0xFF) && instruction.opcode.operation.supports short
  | none => false

theorem supports_short {instruction : Instruction} {short : OperandForm}
    (hlong : instruction.hasShortForm = false)
    (hshort : instruction.opcode.mode.zeroPageForm? = some short)
    (hle : instruction.operandWord ≤ 0xFF) :
    instruction.opcode.operation.supports short = false := by
  simpa only [hasShortForm, hshort, hle, decide_true, Bool.true_and] using hlong

def record (instruction : Instruction) (line : Nat) : Assembly.Record where
  operation := String.ofList instruction.mnemonicLetters
  operand := String.ofList instruction.operandLetters
  line := line
  address := instruction.address
  size := UInt16.ofNat instruction.size
  content := .instruction instruction.code
    (instruction.opcode.mode.shownArgument instruction.operands)

theorem bytes_record {instruction : Instruction}
    (hoperands : instruction.operands.length = instruction.opcode.mode.operandSize) (line : Nat)
    (symbols : Assembly.SymbolTable) :
    (instruction.record line).bytes symbols = .ok instruction.bytes := by
  have hfew : instruction.opcode.mode.operandSize + 1 ≤ 3 := instruction.size_le_three
  simp only [record, Assembly.Record.bytes, AddressingMode.shownArgument, Instruction.size,
    Opcode.size, AddressingMode.instructionSize, Instruction.bytes]
  rw [← hoperands] at hfew ⊢
  generalize instruction.operands = operands at hfew ⊢
  rcases operands with - | ⟨first, - | ⟨second, - | ⟨third, others⟩⟩⟩
  · rfl
  · simp [Assembly.Record.resolve, Assembly.Record.operandBytes, Except.map, lowByte]
  · simp [Assembly.Record.resolve, Assembly.Record.operandBytes, Except.map]
  · simp only [List.length_cons] at hfew
    omega

section
variable {instruction : Instruction} {layout : Assembly.Layout} (line : Nat)

theorem addLine_documented (hdoc : instruction.opcode.isDocumented = true)
    (haddress : instruction.address = layout.cursor) (hconstants : layout.constants = [])
    (hlong : instruction.hasShortForm = false) :
    layout.addLine instruction.text.toList line =
      .ok { layout with
        cursor := layout.cursor + UInt16.ofNat instruction.size
        records := layout.records.push (instruction.record line) } := by
  have hnamed : Operation.ofMnemonic? instruction.mnemonicLetters =
      some instruction.opcode.operation := by
    apply Operation.ofMnemonic?_letters
    simpa [Opcode.isDocumented] using hdoc
  have htext : Text.removeBlanks
      (Assembly.Constant.substitute layout.constants instruction.operandLetters) =
        instruction.operandLetters := by
    rw [hconstants]
    exact Text.removeBlanks_of_none instruction.isBlank_operandLetters
  have hread : Assembly.Layout.readOperand instruction.opcode.operation
      instruction.mnemonicLetters instruction.operandLetters =
        .ok (instruction.opcode.mode.shownOperand instruction.operands instruction.address) :=
    readOperand_operandLetters hdoc _
  have hargument : Assembly.Layout.argument layout.cursor
      (instruction.opcode.mode.shownOperand instruction.operands instruction.address) =
        .ok (instruction.opcode.mode.shownArgument instruction.operands) :=
    haddress ▸ AddressingMode.argument_shownOperand _
  have hform : instruction.opcode.operation.assembledForm
      (instruction.opcode.mode.shownOperand instruction.operands instruction.address).form =
        OperandForm.ofMode instruction.opcode.mode :=
    assembledForm_shownOperand hdoc fun short hshort hle => supports_short hlong hshort hle
  have hopcode : instruction.opcode.operation.opcode?
      (OperandForm.ofMode instruction.opcode.mode) = some instruction.code :=
    Operation.opcode?_eq_some_iff.mpr ⟨hdoc, rfl, rfl⟩
  rw [← htext] at hread
  rw [← hform] at hopcode
  rw [Assembly.Layout.addLine_eq_ok_iff, ofText_text]
  refine ⟨layout, rfl, ?_⟩
  have hexecutes : layout.Executes line _ _ := .instruction hnamed hread hargument hopcode
  rw [htext, hform, OperandForm.instructionSize_ofMode] at hexecutes
  rw [record, haddress]
  exact hexecutes

theorem addLine_undefined (hdoc : instruction.opcode.isDocumented = false) :
    layout.addLine instruction.text.toList line = .error ⟨line, .unknownMnemonic "???"⟩ := by
  have hoperation : instruction.opcode.operation = .undefined := by
    simpa [Opcode.isDocumented] using hdoc
  have hname : instruction.mnemonicLetters = ['?', '?', '?'] := by
    rw [mnemonicLetters, hoperation]
    rfl
  have hnamed : Operation.ofMnemonic? ['?', '?', '?'] = none := by decide
  simp only [Assembly.Layout.addLine, ofText_text, Assembly.Layout.addSourceLine,
    Assembly.Layout.execute, Assembly.Layout.putInstruction, hname, hnamed]
  rfl

end
end Instruction

/-- The lines of consecutive instructions make their records, up to the first undefined opcode. -/
theorem addLines_consecutive {instructions : List Instruction} (layout : Assembly.Layout)
    (line : Nat) (hnext : Consecutive layout.cursor instructions)
    (hconstants : layout.constants = [])
    (hlong : ∀ instruction ∈ instructions, instruction.hasShortForm = false) :
    layout.addLines ((instructions.map fun instruction => instruction.text.toList).zipIdx line) =
      match instructions.findIdx? fun instruction => !instruction.opcode.isDocumented with
      | none => .ok { layout with
          cursor := layout.cursor + UInt16.ofNat (instructions.flatMap Instruction.bytes).length
          records := layout.records ++
            ((instructions.zipIdx line).map fun placed => placed.1.record placed.2).toArray }
      | some index => .error ⟨line + index, .unknownMnemonic "???"⟩ := by
  -- the cursor is the address of the next instruction, so branches are encoded as they were
  induction instructions generalizing layout line with
  | nil =>
    simp only [List.findIdx?_nil, List.map_nil, List.zipIdx_nil, List.flatMap_nil, List.length_nil,
      UInt16.reduceOfNat, UInt16.add_zero, Array.append_empty]
    rfl
  | cons instruction rest ih =>
    obtain ⟨haddress, hoperands, hrest⟩ := hnext
    rw [List.map_cons, List.zipIdx_cons, Assembly.Layout.addLines, List.foldlM_cons,
      List.findIdx?_cons]
    cases hdoc : instruction.opcode.isDocumented with
    | false =>
      rw [Instruction.addLine_undefined line hdoc]
      rfl
    | true =>
      rw [Instruction.addLine_documented line hdoc haddress hconstants
        (hlong _ List.mem_cons_self)]
      refine (ih { layout with
        cursor := layout.cursor + UInt16.ofNat instruction.size
        records := layout.records.push (instruction.record line) } (line + 1) hrest hconstants
        fun other hother => hlong other (List.mem_cons_of_mem _ hother)).trans ?_
      cases rest.findIdx? fun instruction => !instruction.opcode.isDocumented with
      | none =>
        have hsize : instruction.bytes.length = instruction.size := congrArg (· + 1) hoperands
        simp [UInt16.add_assoc, hsize]
      | some index =>
        simp only [Bool.not_true, Bool.false_eq_true, if_false, Option.map_some,
          Except.error.injEq, Assembly.Error.mk.injEq, and_true]
        omega

theorem code_consecutive {address : UInt16} {instructions : List Instruction}
    (hnext : Consecutive address instructions) (line : Nat) (symbols : Assembly.SymbolTable)
    (constants : List Assembly.Constant) :
    Assembly.Program.code ⟨(instructions.zipIdx line).map fun placed => placed.1.record placed.2,
      symbols, constants⟩ = .ok (instructions.flatMap Instruction.bytes) := by
  rw [Assembly.Program.code_eq_ok_iff]
  refine ⟨instructions.map Instruction.bytes, ?_, List.flatMap_def⟩
  induction instructions generalizing address line with
  | nil => exact .nil
  | cons instruction rest ih =>
    obtain ⟨-, hoperands, hrest⟩ := hnext
    exact .cons (instruction.bytes_record hoperands line symbols) (ih hrest (line + 1))

theorem lines_texts (instructions : List Instruction) :
    Text.lines ("\n".intercalate (instructions.map Instruction.text)).toList =
      instructions.map fun instruction => instruction.text.toList := by
  rw [String.toList_intercalate, List.map_map]
  apply Text.lines_intercalate
  · intro l hl
    obtain ⟨instruction, -, rfl⟩ := List.mem_map.mp hl
    exact instruction.text_ne_nil
  · intro l hl hmem
    obtain ⟨instruction, -, rfl⟩ := List.mem_map.mp hl
    exact (instruction.mem_text hmem).1 rfl
  · intro l hl hlast
    obtain ⟨instruction, -, rfl⟩ := List.mem_map.mp hl
    exact (instruction.mem_text (List.mem_of_getLast? hlast)).2.1 rfl

/-- A listing without an avoidable full address assembles to the bytes that were listed, followed by
those that the last instruction lacked; an undefined opcode stops assembly at its line. -/
theorem assemble_listing (base : UInt16) (bytes : List UInt8)
    (hlong : ∀ instruction ∈ listing bytes { base }, instruction.hasShortForm = false) :
    (Assembler.mk base).assemble
        ("\n".intercalate ((listing bytes { base }).map Instruction.text)) =
      (match (listing bytes { base }).findIdx? fun shown => !shown.opcode.isDocumented with
        | none => .ok ((listing bytes { base }).flatMap Instruction.bytes)
        | some index => .error ⟨index + 1, .unknownMnemonic "???"⟩) ∧
    ∃ missing ≤ 2, (listing bytes { base }).flatMap Instruction.bytes =
      bytes ++ List.replicate missing 0 := by
  refine ⟨?_, flatMap_bytes_listing base bytes⟩
  have hnext := consecutive_listing base bytes
  generalize listing bytes { base } = shown at hlong hnext ⊢
  rw [Assembler.assemble, Assembler.parse, Assembly.Program.ofSource, lines_texts,
    addLines_consecutive { cursor := base } 1 hnext rfl hlong]
  cases shown.findIdx? fun shown => !shown.opcode.isDocumented with
  | none => simpa [bind, Except.bind, pure, Except.pure] using code_consecutive hnext 1 {} []
  | some index => simp [Nat.add_comm, bind, Except.bind]

theorem assemble_listing_across_end :
    (∀ shown ∈ listing [0xEA, 0xAD, 0x34, 0x12, 0xD0, 0xFA, 0x4C] { base := 0xFFFC },
      shown.hasShortForm = false) ∧
    (Assembler.mk 0xFFFC).assemble "NOP\nLDA $1234\nBNE $FFFC\nJMP $0000" =
      .ok [0xEA, 0xAD, 0x34, 0x12, 0xD0, 0xFA, 0x4C, 0x00, 0x00] := by
  have hshown : listing [0xEA, 0xAD, 0x34, 0x12, 0xD0, 0xFA, 0x4C] { base := 0xFFFC } =
      [⟨0xFFFC, 0xEA, []⟩, ⟨0xFFFD, 0xAD, [0x34, 0x12]⟩, ⟨0, 0xD0, [0xFA]⟩,
        ⟨2, 0x4C, [0x00, 0x00]⟩] := by
    decide +kernel
  have hlong : ∀ shown ∈ listing [0xEA, 0xAD, 0x34, 0x12, 0xD0, 0xFA, 0x4C] { base := 0xFFFC },
      shown.hasShortForm = false := by
    rw [hshown]
    decide +kernel
  refine ⟨hlong, ?_⟩
  have h := (assemble_listing 0xFFFC [0xEA, 0xAD, 0x34, 0x12, 0xD0, 0xFA, 0x4C] hlong).1
  rw [hshown] at h
  exact h

end Disassembly
end Nmos6502
