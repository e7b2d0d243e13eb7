import Nmos6502.Cpu.Run
import Nmos6502.Emulator.Hooks
import Nmos6502.Memory
import Nmos6502.Pacing

set_option autoImplicit false

namespace Nmos6502

namespace Emulator

structure Session (σ : Type) where
  running : Bool := false
  stopOnBreak : Bool := true
  haltRequested : Bool := false
  recording : Bool := false
  events : Array Event := #[]
  state : σ

namespace Session

variable {σ : Type}

def record (session : Session σ) (event : Event) : Session σ :=
  if session.recording then { session with events := session.events.push event } else session

def take (session : Session σ) (reply : Reply σ) : Session σ :=
  { session with
    state := reply.state
    haltRequested := session.haltRequested || reply.halt }

end Session
end Emulator

structure Emulator (σ : Type) where
  cpu : Cpu Memory := { memory := .zero }
  pacing : Pacing := {}
  hooks : Emulator.Hooks σ := {}
  session : Emulator.Session σ

namespace Emulator

variable {σ : Type}

def isRunning (emulator : Emulator σ) : Bool := emulator.session.running

def isHaltRequested (emulator : Emulator σ) : Bool := emulator.session.haltRequested

def tryLoad (emulator : Emulator σ) (bytes : List UInt8) (address : UInt16) :
    Except Memory.OutOfRange Unit × Emulator σ :=
  let (answer, memory) := emulator.cpu.memory.tryLoad bytes address
  (answer, { emulator with cpu := { emulator.cpu with memory } })

def load (emulator : Emulator σ) (bytes : List UInt8) (address : UInt16) :
    Except Memory.OutOfRange (Emulator σ) :=
  let result := emulator.tryLoad bytes address
  result.1.map fun _ => result.2

/-- Registers as at power-up, and on a hard reset zero in all of memory: the answer, and the emulator
afterwards. -/
def tryReset (emulator : Emulator σ) (hard : Bool) : Except Misuse Unit × Emulator σ :=
  if emulator.isRunning then (.error .resetWhileRunning, emulator)
  else
    let cpu := emulator.cpu.reset
    (.ok (), { emulator with cpu := if hard then { cpu with memory := .zero } else cpu })

def reset (emulator : Emulator σ) (hard : Bool) : Except Misuse (Emulator σ) :=
  let result := emulator.tryReset hard
  result.1.map fun _ => result.2

def step (emulator : Emulator σ) : Executed × Emulator σ :=
  match emulator with
  | ⟨cpu, pacing, hooks, session⟩ =>
    let (executed, cpu) := cpu.step
    (executed, ⟨cpu, pacing, hooks, session.record (.executed executed cpu.registers)⟩)

/-- Begins a run. An earlier request to halt is forgotten. -/
def start (emulator : Emulator σ) (stopOnBreak : Bool) : Emulator σ :=
  let session :=
    { emulator.session with running := true, haltRequested := false, stopOnBreak }
  let event := Event.started emulator.cpu.registers.pc emulator.pacing.cyclesPerBatch
  { emulator with session := session.record event }

def requestHalt (emulator : Emulator σ) : Emulator σ :=
  { emulator with session := { emulator.session with haltRequested := true } }

def halt (emulator : Emulator σ) : Emulator σ :=
  if emulator.isRunning then emulator.requestHalt else emulator

end Emulator

def Cpu.nextInstruction (cpu : Cpu Memory) : Disassembly.Instruction :=
  .decode (cpu.memory.readBytes cpu.registers.pc 3) cpu.registers.pc

def Emulator.nextInstruction {σ : Type} (emulator : Emulator σ) : Disassembly.Instruction :=
  emulator.cpu.nextInstruction

end Nmos6502
