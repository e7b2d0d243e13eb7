import Nmos6502.Cpu.EffectiveAddress
import Nmos6502.Effect
import Nmos6502.Hex
import Nmos6502.Log
import Nmos6502.Opcode

/-!
# One instruction

A step executes the instruction at the program counter. It takes the cycles of the opcode table, one
more when an indexed read leaves its page, and for a branch that is taken one more or, when the
target is in another page than the next instruction, two more.
-/

set_option autoImplicit false

namespace Nmos6502

structure Executed where
  address : UInt16
  code : UInt8
  cycles : Nat
  isBreak : Bool
  deriving DecidableEq, Repr

/-- How many operand bytes an instruction takes for its effect. Branches and calls do not look at
the addressing mode, and what works on registers or the stack alone takes none. -/
def Effect.fetches (mode : AddressingMode) : Effect → Nat
  | load _ | store _ | jump => mode.fetches
  | modify _ => if mode = .accumulator then 0 else mode.fetches
  | branch _ => 1
  | call => 2
  | internal _ | push _ | pull _ | returnFromCall | interrupt | returnFromInterrupt => 0

namespace Executed

def entry (executed : Executed) (r : Registers) : Log.Entry :=
  let place := Hex.word executed.address ++ "  " ++ Hex.byte executed.code
  let mnemonic := (Opcode.ofByte executed.code).mnemonic
  let main := "A=" ++ Hex.byte r.a ++ " X=" ++ Hex.byte r.x ++ " Y=" ++ Hex.byte r.y
  let rest := "P=" ++ Hex.byte r.status.toByte ++ " SP=" ++ Hex.byte r.sp
  ⟨.trace, s!"{place}  {mnemonic}  +{executed.cycles} cycles  {main} {rest}"⟩

end Executed

namespace Cpu

variable {M : Type}

/-- Where the program counter is when an instruction has taken its bytes. -/
def behind (cpu : Cpu M) (opcode : Opcode) : UInt16 :=
  cpu.registers.pc + 1 + UInt16.ofNat (opcode.operation.effect.fetches opcode.mode)

theorem behind_eq {cpu : Cpu M} {opcode : Opcode} {n : Nat}
    (h : opcode.operation.effect.fetches opcode.mode = n) :
    cpu.behind opcode = cpu.registers.pc + UInt16.ofNat (n + 1) := by
  rw [behind, h, UInt16.add_assoc, Nat.add_comm, UInt16.ofNat_add]
  rfl

variable [Bus M]

/-- The processor after an instruction, apart from the counter of cycles. -/
def perform (cpu : Cpu M) (opcode : Opcode) : Cpu M :=
  let r := cpu.registers
  let next := cpu.behind opcode
  let target := cpu.effectiveAddress opcode.mode
  match opcode.operation.effect with
  | .load update =>
    { cpu with registers := { update r (Bus.read cpu.memory target) with pc := next } }
  | .store source =>
    { cpu with
      memory := Bus.write cpu.memory target (source r)
      registers := { r with pc := next } }
  | .modify change =>
    if opcode.mode = .accumulator then
      let (result, status) := change r.status r.a
      { cpu with registers := { r with a := result, status, pc := next } }
    else
      let (result, status) := change r.status (Bus.read cpu.memory target)
      { cpu with
        memory := Bus.write cpu.memory target result
        registers := { r with status, pc := next } }
  | .internal update => { cpu with registers := { update r with pc := next } }
  | .branch taken =>
    { cpu with registers := { r with pc := if taken r.status then target else next } }
  | .jump => { cpu with registers := { r with pc := target } }
  | .push source => { cpu with registers := { r with pc := next } }.push (source r)
  | .pull update =>
    { cpu with registers := { update { r with sp := r.sp + 1 } (cpu.peek 0) with pc := next } }
  | .call => { cpu with registers := { r with pc := target } }.pushWord (next - 1)
  | .returnFromCall => { cpu with registers := { r with sp := r.sp + 2, pc := cpu.peekWord 0 + 1 } }
  | .interrupt =>
    let status := { r.status with breakFlag := true, interruptDisable := true }
    let pushed := ({ cpu with registers := { r with status } }.pushWord (r.pc + 2)).push
      r.status.pushed
    { pushed with
      registers := { pushed.registers with pc := Bus.readWord pushed.memory interruptVector } }
  | .returnFromInterrupt =>
    { cpu with
      registers :=
        { r with sp := r.sp + 3, status := Status.pulled (cpu.peek 0), pc := cpu.peekWord 1 } }

def extraCycles (cpu : Cpu M) (opcode : Opcode) : Nat :=
  let indexing := if opcode.pagePenalty && cpu.crossesPage opcode.mode then 1 else 0
  let branching :=
    match opcode.operation.effect with
    | .branch taken =>
      if taken cpu.registers.status then
        if samePage (cpu.registers.pc + 2) (cpu.effectiveAddress opcode.mode) then 1 else 2
      else 0
    | _ => 0
  indexing + branching

def upcoming (cpu : Cpu M) : Executed :=
  let code := Bus.read cpu.memory cpu.registers.pc
  let opcode := Opcode.ofByte code
  { address := cpu.registers.pc
    code
    cycles := opcode.cycles + cpu.extraCycles opcode
    isBreak := opcode.operation == .brk }

def step (cpu : Cpu M) : Executed × Cpu M :=
  let executed := cpu.upcoming
  let counted := { cpu with cycles := cpu.cycles + UInt64.ofNat executed.cycles }
  (executed, counted.perform (Opcode.ofByte executed.code))

theorem step_cycles_pos (cpu : Cpu M) : 2 ≤ cpu.step.1.cycles :=
  Nat.le_trans (Opcode.two_le_cycles _) (Nat.le_add_right _ _)

end Cpu
end Nmos6502
