import Nmos6502.Hex
import Nmos6502.Opcode

set_option autoImplicit false

namespace Nmos6502

namespace AddressingMode

/-- The operand text of a mode. The address is that of the instruction; a relative operand shows the
address that it leads to. -/
def operandText (mode : AddressingMode) (operands : List UInt8) (address : UInt16) : String :=
  let first := operands.headD 0
  let full := Nmos6502.word first (operands.getD 1 0)
  match mode with
  | implicit => ""
  | accumulator => "A"
  | immediate => "#$" ++ Hex.byte first
  | zeroPage => "$" ++ Hex.byte first
  | zeroPageX => "$" ++ Hex.byte first ++ ",X"
  | zeroPageY => "$" ++ Hex.byte first ++ ",Y"
  | relative => "$" ++ Hex.word (address + 2 + signExtend first)
  | absolute => "$" ++ Hex.word full
  | absoluteX => "$" ++ Hex.word full ++ ",X"
  | absoluteY => "$" ++ Hex.word full ++ ",Y"
  | indirect => "($" ++ Hex.word full ++ ")"
  | indirectX => "($" ++ Hex.byte first ++ ",X)"
  | indirectY => "($" ++ Hex.byte first ++ "),Y"

end AddressingMode

namespace Disassembly

def instructionText (mnemonic : String) (mode : AddressingMode) (operands : List UInt8)
    (address : UInt16) : String :=
  let operand := mode.operandText operands address
  if operand.isEmpty then mnemonic else mnemonic ++ " " ++ operand

/-- The first bytes of a list, with zeros for those it lacks. -/
def takePadded : Nat → List UInt8 → List UInt8
  | 0, _ => []
  | n + 1, [] => 0 :: takePadded n []
  | n + 1, b :: bs => b :: takePadded n bs

theorem takePadded_length (n : Nat) (bs : List UInt8) : (takePadded n bs).length = n := by
  induction n generalizing bs with
  | zero => rfl
  | succ n ih => cases bs <;> simp [takePadded, ih]

structure Instruction where
  address : UInt16
  code : UInt8
  operands : List UInt8
  deriving DecidableEq, Repr

namespace Instruction

def opcode (instruction : Instruction) : Opcode := Opcode.ofByte instruction.code

def decode (bytes : List UInt8) (address : UInt16) : Instruction :=
  let code := bytes.headD 0
  { address, code, operands := takePadded (Opcode.ofByte code).mode.operandSize bytes.tail }

def bytes (instruction : Instruction) : List UInt8 := instruction.code :: instruction.operands

def size (instruction : Instruction) : Nat := instruction.opcode.size

def text (instruction : Instruction) : String :=
  instructionText instruction.opcode.mnemonic instruction.opcode.mode instruction.operands
    instruction.address

theorem decode_bytes_length (bytes : List UInt8) (address : UInt16) :
    (decode bytes address).bytes.length = (decode bytes address).size := by
  simp [decode, Instruction.bytes, size, opcode, Opcode.size, AddressingMode.instructionSize,
    takePadded_length]

theorem size_pos (instruction : Instruction) : 1 ≤ instruction.size :=
  instruction.opcode.mode.instructionSize_pos

def byteColumns : Nat := 9

def line (instruction : Instruction) : String :=
  let bytes := " ".intercalate (instruction.bytes.map Hex.byte)
  Hex.word instruction.address ++ " " ++ bytes.pushn ' ' (byteColumns - bytes.length) ++
    instruction.text

end Instruction
end Disassembly
end Nmos6502
