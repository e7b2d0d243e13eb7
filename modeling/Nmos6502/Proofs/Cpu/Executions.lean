import Nmos6502.Proofs.Cpu.Trace
import Nmos6502.Proofs.OpcodeLookup

set_option autoImplicit false

namespace Nmos6502

def Executed.total : List Executed → Nat
  | [] => 0
  | step :: steps => step.cycles + total steps

theorem Executed.total_append (first second : List Executed) :
    total (first ++ second) = total first + total second := by
  induction first with
  | nil => rw [List.nil_append, total, Nat.zero_add]
  | cons step first ih => rw [List.cons_append, total, total, ih, Nat.add_assoc]

theorem Executed.total_flatten (batches : List (List Executed)) :
    total batches.flatten = (batches.map total).foldr (· + ·) 0 := by
  induction batches with
  | nil => rfl
  | cons first rest ih => rw [List.flatten_cons, total_append, ih, List.map_cons, List.foldr_cons]

namespace Cpu

section
variable {M : Type} [Bus M]

/-- What the next `n` steps do. -/
def executions : Cpu M → Nat → List Executed
  | _, 0 => []
  | cpu, n + 1 => cpu.step.1 :: cpu.step.2.executions n

variable (cpu : Cpu M)

theorem executions_add (m n : Nat) :
    cpu.executions (m + n) = cpu.executions m ++ (cpu.after m).executions n := by
  induction m generalizing cpu with
  | zero => rw [Nat.zero_add, after, executions, List.nil_append]
  | succ m ih => rw [Nat.succ_add, executions, executions, after, ih, List.cons_append]

theorem total_executions_add (m n : Nat) :
    Executed.total (cpu.executions (m + n)) =
      Executed.total (cpu.executions m) + Executed.total ((cpu.after m).executions n) := by
  rw [executions_add, Executed.total_append]

theorem total_executions_succ (n : Nat) :
    Executed.total (cpu.executions (n + 1)) =
      Executed.total (cpu.executions n) + (cpu.after n).step.1.cycles :=
  cpu.total_executions_add n 1

theorem step_cycles : cpu.step.2.cycles = cpu.cycles + UInt64.ofNat cpu.step.1.cycles := by
  rw [step_eq_perform, perform_cycles]
  rfl

theorem after_cycles (n : Nat) :
    (cpu.after n).cycles = cpu.cycles + UInt64.ofNat (Executed.total (cpu.executions n)) := by
  induction n generalizing cpu with
  | zero => simp [after, executions, Executed.total]
  | succ n ih =>
    rw [after, ih, step_cycles, executions, Executed.total, UInt64.ofNat_add,
      UInt64.add_assoc]

end
end Cpu

set_option maxRecDepth 4000 in
theorem Opcode.cycles_le (b : UInt8) :
    (ofByte b).cycles + (if (ofByte b).pagePenalty then 1 else 0) +
      (if (ofByte b).operation.effect.isBranch then 2 else 0) ≤ 7 := by
  have all : ∀ opcode ∈ table.toList, opcode.cycles + (if opcode.pagePenalty then 1 else 0) +
      (if opcode.operation.effect.isBranch then 2 else 0) ≤ 7 := by
    decide
  exact all _ (ofByte_mem_table b)

namespace Cpu

variable {M : Type} [Bus M] (cpu : Cpu M)

theorem extraCycles_le (opcode : Opcode) :
    cpu.extraCycles opcode ≤
      (if opcode.pagePenalty then 1 else 0) + if opcode.operation.effect.isBranch then 2 else 0 := by
  unfold extraCycles
  apply Nat.add_le_add
  · cases opcode.pagePenalty with
    | false => simp
    | true =>
      rw [Bool.true_and, if_pos rfl]
      split <;> omega
  · cases opcode.operation.effect with
    | branch taken =>
      simp only [Effect.isBranch, if_true]
      by_cases htaken : taken cpu.registers.status = true
      · rw [if_pos htaken]
        split <;> omega
      · rw [if_neg htaken]
        omega
    | _ => exact Nat.zero_le _

theorem step_cycles_le : cpu.step.1.cycles ≤ 7 := by
  have hmost : cpu.nextOpcode.cycles + (if cpu.nextOpcode.pagePenalty then 1 else 0) +
      (if cpu.nextOpcode.operation.effect.isBranch then 2 else 0) ≤ 7 := Opcode.cycles_le _
  have hextra := cpu.extraCycles_le cpu.nextOpcode
  change cpu.nextOpcode.cycles + cpu.extraCycles cpu.nextOpcode ≤ 7
  omega

end Cpu
end Nmos6502
