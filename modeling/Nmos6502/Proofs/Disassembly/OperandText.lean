import Nmos6502.Assembly.Layout
import Nmos6502.Disassembly.Instruction
import Nmos6502.Proofs.Assembly.BranchByte
import Nmos6502.Proofs.OpcodeLookup
import Nmos6502.Proofs.OperandGrammar

set_option autoImplicit false

namespace Nmos6502

namespace Operand

def ofNumber (value : UInt16) (index : Option IndexRegister) : Operand :=
  if value ≤ 0xFF then zeroPage value.toUInt8 index else absolute (.number value) index

theorem spells_ofNumber {numeral : List Char} {value : UInt16}
    (hvalue : Numeral.value? numeral = some value) (index : Option IndexRegister) :
    Spells (numeral ++ indexLetters index) (ofNumber value index) := by
  unfold ofNumber
  split
  · rename_i hbyte
    exact .zeroPage index (by rw [Numeral.toUInt16_toUInt8 hbyte, hvalue])
  · rename_i hlarge
    exact .absolute index hvalue (UInt16.not_le.mp hlarge)

end Operand

theorem Assembly.Layout.argument_ofNumber (address value : UInt16) (index : Option IndexRegister) :
    argument address (.ofNumber value index) = .ok (.value value) := by
  by_cases hle : value ≤ 0xFF
  · simp [Operand.ofNumber, hle, argument, Numeral.toUInt16_toUInt8 hle]
  · simp [Operand.ofNumber, hle, argument]

namespace AddressingMode

/-- The operand that the text of a disassembled operand is read as. -/
def shownOperand (mode : AddressingMode) (operands : List UInt8) (address : UInt16) : Operand :=
  let first := operands.headD 0
  let full := word first (operands.getD 1 0)
  match mode with
  | implicit => .implied
  | accumulator => .accumulator
  | immediate => .immediate first
  | zeroPage => .zeroPage first none
  | zeroPageX => .zeroPage first (some .x)
  | zeroPageY => .zeroPage first (some .y)
  | relative => .branch (.number (address + 2 + signExtend first))
  | absolute => .ofNumber full none
  | absoluteX => .ofNumber full (some .x)
  | absoluteY => .ofNumber full (some .y)
  | indirect => .indirect full
  | indirectX => .indirectX first
  | indirectY => .indirectY first

variable {operands : List UInt8} {address : UInt16}

def operandLetters (mode : AddressingMode) (operands : List UInt8) (address : UInt16) :
    List Char :=
  let first := operands.headD 0
  let full := word first (operands.getD 1 0)
  match mode with
  | implicit => []
  | accumulator => ['A']
  | immediate => '#' :: '$' :: Hex.byteDigits first
  | zeroPage => '$' :: Hex.byteDigits first
  | zeroPageX => '$' :: Hex.byteDigits first ++ [',', 'X']
  | zeroPageY => '$' :: Hex.byteDigits first ++ [',', 'Y']
  | relative => '$' :: Hex.wordDigits (address + 2 + signExtend first)
  | absolute => '$' :: Hex.wordDigits full
  | absoluteX => '$' :: Hex.wordDigits full ++ [',', 'X']
  | absoluteY => '$' :: Hex.wordDigits full ++ [',', 'Y']
  | indirect => '(' :: ('$' :: Hex.wordDigits full ++ [')'])
  | indirectX => '(' :: ('$' :: Hex.byteDigits first ++ [',', 'X'] ++ [')'])
  | indirectY => '(' :: ('$' :: Hex.byteDigits first ++ [')', ',', 'Y'])

theorem toList_operandText (mode : AddressingMode) :
    (mode.operandText operands address).toList = mode.operandLetters operands address := by
  cases mode <;> simp [operandText, operandLetters, Hex.byte, Hex.word]

theorem classifyBranch_operandLetters :
    Operand.classifyBranch (relative.operandLetters operands address) =
      some (relative.shownOperand operands address) := by
  simp [operandLetters, shownOperand, Operand.classifyBranch, Operand.ofBare?,
    Operand.ofBranch?, Operand.target?, Label.isName, Label.startsName,
    Numeral.value?_wordDigits]

theorem classify_operandLetters {mode : AddressingMode} (hmode : mode ≠ relative) :
    Operand.classify (mode.operandLetters operands address) =
      .ok (some (mode.shownOperand operands address)) := by
  have byte := fun b => Numeral.value?_byteDigits b
  have full := fun w => Numeral.value?_wordDigits w
  apply Operand.classify_of_spells
  cases mode with
  | implicit => exact .implied
  | accumulator => exact .accumulator
  | immediate => exact .immediate (byte _)
  | zeroPage => exact .zeroPage none (byte _)
  | zeroPageX => exact .zeroPage (some .x) (byte _)
  | zeroPageY => exact .zeroPage (some .y) (byte _)
  | relative => exact absurd rfl hmode
  | absolute => exact Operand.spells_ofNumber (full _) none
  | absoluteX => exact Operand.spells_ofNumber (full _) (some .x)
  | absoluteY => exact Operand.spells_ofNumber (full _) (some .y)
  | indirect => exact .indirect (full _)
  | indirectX => exact .indirectX (byte _)
  | indirectY => exact .indirectY (byte _)

def zeroPageForm? : AddressingMode → Option OperandForm
  | absolute => some .zeroPage
  | absoluteX => some .zeroPageX
  | absoluteY => some .zeroPageY
  | _ => none

def shownArgument (mode : AddressingMode) (operands : List UInt8) : Assembly.Argument :=
  match mode.operandSize with
  | 0 => .none
  | 1 => .value (operands.headD 0).toUInt16
  | _ => .value (word (operands.headD 0) (operands.getD 1 0))

theorem argument_shownOperand (mode : AddressingMode) :
    Assembly.Layout.argument address (mode.shownOperand operands address) =
      .ok (mode.shownArgument operands) := by
  cases mode with
  | relative =>
    simp only [shownOperand, Assembly.Layout.argument, Assembly.branchByte_eq_ok_iff.mpr rfl]
    rfl
  | absolute => exact Assembly.Layout.argument_ofNumber _ _ _
  | absoluteX => exact Assembly.Layout.argument_ofNumber _ _ _
  | absoluteY => exact Assembly.Layout.argument_ofNumber _ _ _
  | _ => rfl

end AddressingMode

theorem assembledForm_ofNumber {operation : Operation} {value : UInt16}
    {index : Option IndexRegister}
    (hwide : operation.supports (Operand.indexedForm .absolute .absoluteX .absoluteY index) = true)
    (hlong : value ≤ 0xFF →
      operation.supports (Operand.indexedForm .zeroPage .zeroPageX .zeroPageY index) = false) :
    operation.assembledForm (Operand.ofNumber value index).form =
      Operand.indexedForm .absolute .absoluteX .absoluteY index := by
  by_cases hle : value ≤ 0xFF
  · have hshort := hlong hle
    rcases index with - | (- | -) <;>
      simp_all [Operation.assembledForm, Operand.ofNumber, Operand.form, Operand.indexedForm,
        OperandForm.widened]
  · rcases index with - | (- | -) <;>
      simp [Operation.assembledForm, Operand.ofNumber, hle, Operand.form, Operand.indexedForm,
        OperandForm.widened]

section
variable {b : UInt8} (hdoc : (Opcode.ofByte b).isDocumented = true)
variable {operands : List UInt8} {address : UInt16}
include hdoc

theorem readOperand_operandLetters (name : List Char) :
    Assembly.Layout.readOperand (Opcode.ofByte b).operation name
        ((Opcode.ofByte b).mode.operandLetters operands address) =
      .ok ((Opcode.ofByte b).mode.shownOperand operands address) := by
  have hbranch := Opcode.isBranch_operation_iff hdoc
  by_cases hmode : (Opcode.ofByte b).mode = .relative
  · simp [Assembly.Layout.readOperand, hbranch.mpr hmode, hmode,
      AddressingMode.classifyBranch_operandLetters]
  · simp [Assembly.Layout.readOperand, mt hbranch.mp hmode,
      AddressingMode.classify_operandLetters hmode]

/-- The operand that an instruction shows is assembled in the form of its mode, unless that is a
full address for which there is a zero-page form. -/
theorem assembledForm_shownOperand
    (hlong : ∀ short ∈ (Opcode.ofByte b).mode.zeroPageForm?,
      word (operands.headD 0) (operands.getD 1 0) ≤ 0xFF →
        (Opcode.ofByte b).operation.supports short = false) :
    (Opcode.ofByte b).operation.assembledForm
        ((Opcode.ofByte b).mode.shownOperand operands address).form =
      OperandForm.ofMode (Opcode.ofByte b).mode := by
  have hown : (Opcode.ofByte b).operation.supports (OperandForm.ofMode (Opcode.ofByte b).mode) =
      true := Operation.supports_iff.mpr ⟨b, hdoc, rfl, rfl⟩
  -- from here on only the mode matters: what the operation supports is in `hown` and `hlong`
  generalize (Opcode.ofByte b).mode = mode at hlong hown ⊢
  cases mode with
  | zeroPage | zeroPageX | zeroPageY =>
    simp only [OperandForm.ofMode] at hown
    simp [AddressingMode.shownOperand, Operand.form, Operand.indexedForm, Operation.assembledForm,
      OperandForm.widened, OperandForm.ofMode, hown]
  | absolute | absoluteX | absoluteY =>
    exact assembledForm_ofNumber hown (hlong _ rfl)
  | _ => rfl

end
end Nmos6502
