import Nmos6502.Bus
import Nmos6502.Registers

set_option autoImplicit false

namespace Nmos6502

structure Cpu (M : Type) where
  registers : Registers := {}
  cycles : UInt64 := 0
  memory : M

namespace Cpu

variable {M : Type} [Bus M]

def interruptVector : UInt16 := 0xFFFE

def stackAddress (sp : UInt8) : UInt16 := word sp 1

def reset (cpu : Cpu M) : Cpu M := { memory := cpu.memory }

def push (cpu : Cpu M) (value : UInt8) : Cpu M :=
  { cpu with
    memory := Bus.write cpu.memory (stackAddress cpu.registers.sp) value
    registers := { cpu.registers with sp := cpu.registers.sp - 1 } }

def pushWord (cpu : Cpu M) (value : UInt16) : Cpu M :=
  (cpu.push (highByte value)).push (lowByte value)

/-- The byte that the pull after `depth` pulls gives. -/
def peek (cpu : Cpu M) (depth : UInt8) : UInt8 :=
  Bus.read cpu.memory (stackAddress (cpu.registers.sp + depth + 1))

def peekWord (cpu : Cpu M) (depth : UInt8) : UInt16 :=
  word (cpu.peek depth) (cpu.peek (depth + 1))

end Cpu
end Nmos6502
