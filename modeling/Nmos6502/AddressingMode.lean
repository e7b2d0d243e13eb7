set_option autoImplicit false

namespace Nmos6502

inductive AddressingMode where
  | implicit
  | accumulator
  | immediate
  | zeroPage
  | zeroPageX
  | zeroPageY
  | relative
  | absolute
  | absoluteX
  | absoluteY
  | indirect
  /-- The address stored in page zero, X further on than the operand. -/
  | indirectX
  /-- Y further on than the address stored in page zero. -/
  | indirectY
  deriving DecidableEq, Repr

namespace AddressingMode

def operandSize : AddressingMode → Nat
  | implicit | accumulator => 0
  | immediate | zeroPage | zeroPageX | zeroPageY | relative | indirectX | indirectY => 1
  | absolute | absoluteX | absoluteY | indirect => 2

def instructionSize (mode : AddressingMode) : Nat := mode.operandSize + 1

def all : List AddressingMode :=
  [implicit, accumulator, immediate, zeroPage, zeroPageX, zeroPageY, relative, absolute, absoluteX,
    absoluteY, indirect, indirectX, indirectY]

theorem mem_all (mode : AddressingMode) : mode ∈ all := by
  cases mode <;> decide

theorem instructionSize_pos (mode : AddressingMode) : 1 ≤ mode.instructionSize := by
  simp [instructionSize]

theorem instructionSize_le_three (mode : AddressingMode) : mode.instructionSize ≤ 3 := by
  cases mode <;> decide

end AddressingMode
end Nmos6502
