import Nmos6502.Emulator.Basic

/-!
# Batches and runs

A run is a sequence of batches. After each instruction the step hook is called, and the batch ends
when the hook fails, when a software interrupt stops the run, when a halt is requested, or when the
cycles of the batch are spent, whichever of them is found first in this order. A completed batch is
told to the batch hook, which may still halt the run.
-/

set_option autoImplicit false

namespace Nmos6502.Emulator

variable {σ : Type}

inductive Outcome where
  | ongoing
  | stopped (reason : StopReason)
  deriving DecidableEq, Repr

structure Batch (σ : Type) where
  stopsWith : Option StopReason
  cycles : Nat
  session : Session σ
  cpu : Cpu Memory

/-- Executes the rest of a batch, at least one instruction, when `spent` cycles of `quota` are
spent. -/
def runSteps (hooks : Hooks σ) (quota spent : Nat) (session : Session σ) (cpu : Cpu Memory) :
    Batch σ :=
  let result := cpu.step
  let executed := result.1
  let after := result.2
  let reply := hooks.step executed session.state
  let informed := (session.record (.executed executed after.registers)).take reply.toReply
  let batch (stopsWith : Option StopReason) (session : Session σ) : Batch σ :=
    { stopsWith, cycles := spent + executed.cycles, session, cpu := after }
  match reply.failure with
  | some failure => batch (some .error) (informed.record (.hookFailed after.registers.pc failure))
  | none =>
    if executed.isBreak && informed.stopOnBreak then batch (some .brk) informed
    else if informed.haltRequested then batch none informed
    else if quota ≤ spent + executed.cycles then batch none informed
    else runSteps hooks quota (spent + executed.cycles) informed after
termination_by quota - spent
decreasing_by
  have pos : 2 ≤ executed.cycles := cpu.step_cycles_pos
  change quota - (spent + executed.cycles) < quota - spent
  omega

def Session.stop (session : Session σ) (reason : StopReason) (hooks : Hooks σ)
    (cpu : Cpu Memory) : Session σ :=
  let ended := { session with running := false }
  (ended.record (.stopped reason cpu.cycles cpu.nextInstruction)).take
    (hooks.stop reason session.state)

/-- What follows the last instruction of a batch: how the batch leaves the run, and the session. -/
def Batch.settle (batch : Batch σ) (hooks : Hooks σ) : Outcome × Session σ :=
  match batch.stopsWith with
  | some reason => (.stopped reason, batch.session.stop reason hooks batch.cpu)
  | none =>
    let told := batch.session.take (hooks.batch batch.cycles batch.session.state)
    if told.haltRequested then (.stopped .user, told.stop .user hooks batch.cpu)
    else (.ongoing, told.record (.batchDone batch.cycles))

def runBatch (emulator : Emulator σ) : Except Misuse Outcome × Emulator σ :=
  match emulator with
  | ⟨cpu, pacing, hooks, session⟩ =>
    if session.running then
      let batch := runSteps hooks pacing.cyclesPerBatch.toNat 0 session cpu
      let settled := batch.settle hooks
      (.ok settled.1, ⟨batch.cpu, pacing, hooks, settled.2⟩)
    else (.error .notRunning, ⟨cpu, pacing, hooks, session⟩)

/-- Runs batches until the run ends, at most `limit` of them. There is no reason if the run is then
still going on. -/
def runBatches : Nat → Emulator σ → Option StopReason × Emulator σ
  | 0, emulator => (none, emulator)
  | limit + 1, emulator =>
    match emulator.runBatch with
    | (.ok .ongoing, emulator) => runBatches limit emulator
    | (.ok (.stopped reason), emulator) => (some reason, emulator)
    | (.error misuse, emulator) =>
      (some .error, { emulator with session := emulator.session.record (.aborted misuse) })

def run (emulator : Emulator σ) (limit : Nat) (stopOnBreak : Bool) :
    Option StopReason × Emulator σ :=
  (emulator.start stopOnBreak).runBatches limit

end Nmos6502.Emulator
