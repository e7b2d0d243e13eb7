import Nmos6502.Cpu.Step
import Nmos6502.Disassembly.Instruction

set_option autoImplicit false

namespace Nmos6502.Emulator

inductive StopReason where
  | user
  | brk
  | error
  deriving DecidableEq, Repr

def StopReason.name : StopReason → String
  | .user => "User"
  | .brk => "Break"
  | .error => "Error"

inductive Misuse where
  | resetWhileRunning
  | notRunning
  deriving DecidableEq, Repr

def Misuse.message : Misuse → String
  | .resetWhileRunning => "emulator must be stopped before calling reset"
  | .notRunning => "emulator is not running"

inductive Event where
  | started (pc : UInt16) (quota : UInt64)
  | executed (step : Executed) (after : Registers)
  | hookFailed (pc : UInt16) (failure : String)
  | batchDone (cycles : Nat)
  | stopped (reason : StopReason) (cycles : UInt64) (next : Disassembly.Instruction)
  | aborted (misuse : Misuse)

def Event.entry : Event → Log.Entry
  | .started pc quota =>
    ⟨.debug, s!"run started at ${Hex.word pc}, {quota.toNat} cycles per batch"⟩
  | .executed step after => step.entry after
  | .hookFailed pc failure => ⟨.error, s!"step hook failed at ${Hex.word pc}: {failure}"⟩
  | .batchDone cycles => ⟨.debug, s!"batch of {cycles} cycles"⟩
  | .stopped reason cycles next =>
    ⟨.debug, s!"stopped ({reason.name}) after {cycles.toNat} cycles, next: {next.line}"⟩
  | .aborted misuse => ⟨.error, s!"run aborted: {misuse.message}"⟩

end Nmos6502.Emulator
