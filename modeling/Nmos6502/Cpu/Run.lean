import Nmos6502.Cpu.Step

set_option autoImplicit false

namespace Nmos6502.Cpu

variable {M : Type} [Bus M] {σ : Type}

def spendFrom (observe : σ → Executed → Registers → σ) (budget spent : Nat) (seen : σ)
    (cpu : Cpu M) : Nat × σ × Cpu M :=
  if spent < budget then
    let result := cpu.step
    let executed := result.1
    let after := result.2
    spendFrom observe budget (spent + executed.cycles) (observe seen executed after.registers) after
  else (spent, seen, cpu)
termination_by budget - spent
decreasing_by
  have pos : 2 ≤ executed.cycles := cpu.step_cycles_pos
  change budget - (spent + executed.cycles) < budget - spent
  omega

/-- Executes whole instructions until at least `budget` cycles are spent: the cycles that were
spent, what the observer makes of the steps, and the processor afterwards. -/
def spend (observe : σ → Executed → Registers → σ) (budget : Nat) (seen : σ) (cpu : Cpu M) :
    Nat × σ × Cpu M :=
  spendFrom observe budget 0 seen cpu

def runForCycles (budget : Nat) (cpu : Cpu M) : Nat × Cpu M :=
  let (spent, _, after) := spend (fun (_ : Unit) _ _ => ()) budget () cpu
  (spent, after)

/-- Executes at most `limit` instructions, the last of them the first software interrupt: how many
there were, whether a software interrupt was among them, what the observer makes of the steps, and
the processor afterwards. -/
def runUntilBreak (observe : σ → Executed → Registers → σ) (limit : Nat) (seen : σ)
    (cpu : Cpu M) : Nat × Bool × σ × Cpu M :=
  go limit 0 seen cpu
where
  go : Nat → Nat → σ → Cpu M → Nat × Bool × σ × Cpu M
    | 0, done, seen, cpu => (done, false, seen, cpu)
    | limit + 1, done, seen, cpu =>
      let (executed, after) := cpu.step
      let seen := observe seen executed after.registers
      if executed.isBreak then (done + 1, true, seen, after) else go limit (done + 1) seen after

end Nmos6502.Cpu
