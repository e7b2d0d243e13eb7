import Nmos6502.AddressingMode
import Nmos6502.Cpu.Basic

set_option autoImplicit false

namespace Nmos6502

/-- How many bytes behind the opcode the processor takes to find the address of an operand. -/
def AddressingMode.fetches : AddressingMode → Nat
  | implicit | accumulator => 0
  | immediate | zeroPage | zeroPageX | zeroPageY | indirectX | indirectY => 1
  | absolute | absoluteX | absoluteY | indirect => 2
  | relative => 1

namespace Cpu

variable {M : Type} [Bus M]

def operandByte (cpu : Cpu M) : UInt8 := Bus.read cpu.memory (cpu.registers.pc + 1)

def operandWord (cpu : Cpu M) : UInt16 := Bus.readWord cpu.memory (cpu.registers.pc + 1)

/-- The word at a place in page zero; its high byte lies in page zero too. -/
def zeroPageWord (cpu : Cpu M) (place : UInt8) : UInt16 :=
  word (Bus.read cpu.memory place.toUInt16) (Bus.read cpu.memory (place + 1).toUInt16)

/-- The word at an address, with its high byte taken from the same page. -/
def wordInPage (cpu : Cpu M) (pointer : UInt16) : UInt16 :=
  word (Bus.read cpu.memory pointer)
    (Bus.read cpu.memory (word (lowByte pointer + 1) (highByte pointer)))

/-- The address that a mode names, before an index moves it out of page zero or on to another
page. -/
def baseAddress (cpu : Cpu M) : AddressingMode → UInt16
  | .implicit | .accumulator | .immediate => cpu.registers.pc + 1
  | .zeroPage => cpu.operandByte.toUInt16
  | .zeroPageX => (cpu.operandByte + cpu.registers.x).toUInt16
  | .zeroPageY => (cpu.operandByte + cpu.registers.y).toUInt16
  | .relative => cpu.registers.pc + 2 + signExtend cpu.operandByte
  | .absolute | .absoluteX | .absoluteY => cpu.operandWord
  | .indirect => cpu.wordInPage cpu.operandWord
  | .indirectX => cpu.zeroPageWord (cpu.operandByte + cpu.registers.x)
  | .indirectY => cpu.zeroPageWord cpu.operandByte

def indexOffset (cpu : Cpu M) : AddressingMode → UInt8
  | .absoluteX => cpu.registers.x
  | .absoluteY | .indirectY => cpu.registers.y
  | _ => 0

def effectiveAddress (cpu : Cpu M) (mode : AddressingMode) : UInt16 :=
  cpu.baseAddress mode + (cpu.indexOffset mode).toUInt16

def crossesPage (cpu : Cpu M) (mode : AddressingMode) : Bool :=
  !samePage (cpu.baseAddress mode) (cpu.effectiveAddress mode)

end Cpu
end Nmos6502
