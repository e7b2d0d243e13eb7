import Mathlib.Order.Bounds.Basic
import Nmos6502.Cpu.Run
import Nmos6502.Proofs.Cpu.Executions

set_option autoImplicit false

namespace Nmos6502.Cpu

section
variable {M : Type} [Bus M]

/-- This is the least number of steps that take at least so many cycles together. -/
def LeastSteps (cpu : Cpu M) (budget k : Nat) : Prop :=
  IsLeast {k | budget ≤ Executed.total (cpu.executions k)} k

variable {cpu : Cpu M} {budget k : Nat}

theorem strictMono_total (cpu : Cpu M) :
    StrictMono fun n => Executed.total (cpu.executions n) :=
  strictMono_nat_of_lt_succ fun n => by
    have hpos := (cpu.after n).step_cycles_pos
    rw [total_executions_succ]
    omega

namespace LeastSteps

theorem zero (cpu : Cpu M) : cpu.LeastSteps 0 0 := ⟨Nat.zero_le _, fun _ _ => Nat.zero_le _⟩

theorem succ (hbudget : 0 < budget) (h : cpu.step.2.LeastSteps (budget - cpu.step.1.cycles) k) :
    cpu.LeastSteps budget (k + 1) := by
  obtain ⟨henough, hleast⟩ := h
  refine ⟨?_, fun j hj => ?_⟩
  · exact Nat.sub_le_iff_le_add'.mp henough
  · cases j with
    | zero => exact absurd hbudget (Nat.not_lt.mpr hj)
    | succ j => exact Nat.succ_le_succ (hleast (Nat.sub_le_iff_le_add'.mpr hj))

theorem add {rest n : Nat} (m : Nat) (h : (cpu.after m).LeastSteps rest n) :
    cpu.LeastSteps (Executed.total (cpu.executions m) + rest) (m + n) := by
  obtain ⟨henough, hleast⟩ := h
  have htotal (i : Nat) := cpu.total_executions_add m i
  refine ⟨?_, fun j hj => ?_⟩
  · exact (Nat.add_le_add_left henough _).trans (htotal n).ge
  · have hfull : Executed.total (cpu.executions m) + rest ≤ Executed.total (cpu.executions j) := hj
    have hmj : m ≤ j := cpu.strictMono_total.le_iff_le.mp ((Nat.le_add_right _ _).trans hfull)
    obtain ⟨i, rfl⟩ := Nat.exists_eq_add_of_le hmj
    rw [htotal] at hfull
    exact Nat.add_le_add_left (hleast (Nat.le_of_add_le_add_left hfull)) m

theorem total_lt (h : cpu.LeastSteps budget k) : ∀ j < k,
    Executed.total (cpu.executions j) < budget :=
  fun _ hj => Nat.lt_of_not_le fun henough => Nat.not_lt.mpr (h.2 henough) hj

theorem total_le (h : cpu.LeastSteps budget k) :
    Executed.total (cpu.executions k) ≤ budget + 6 := by
  cases k with
  | zero => exact Nat.zero_le _
  | succ k =>
    have hbefore := h.total_lt k k.lt_succ_self
    have hmost := (cpu.after k).step_cycles_le
    rw [total_executions_succ]
    omega

theorem eq_zero (h : cpu.LeastSteps 0 k) : k = 0 := h.unique (zero cpu)

end LeastSteps

variable {σ : Type}

theorem spendFrom_spec (observe : σ → Executed → Registers → σ) (budget spent : Nat) (seen : σ)
    (cpu : Cpu M) :
    ∃ k, cpu.LeastSteps (budget - spent) k ∧
      (spendFrom observe budget spent seen cpu).1 = spent + Executed.total (cpu.executions k) ∧
      (spendFrom observe budget spent seen cpu).2.2 = cpu.after k := by
  fun_induction spendFrom observe budget spent seen cpu with
  | case1 spent seen cpu hspent result executed after ih =>
    obtain ⟨k, hleast, htotal, hafter⟩ := ih
    rw [Nat.sub_add_eq] at hleast
    refine ⟨k + 1, .succ (Nat.sub_pos_of_lt hspent) hleast, ?_, hafter⟩
    rw [htotal, Nat.add_assoc]
    rfl
  | case2 spent seen cpu hspent =>
    rw [Nat.sub_eq_zero_of_le (Nat.le_of_not_lt hspent)]
    exact ⟨0, .zero cpu, rfl, rfl⟩

theorem exists_leastSteps (cpu : Cpu M) (budget : Nat) :
    ∃ k, cpu.LeastSteps budget k ∧
      cpu.runForCycles budget = (Executed.total (cpu.executions k), cpu.after k) := by
  obtain ⟨k, hleast, htotal, hafter⟩ := spendFrom_spec (fun (_ : Unit) _ _ => ()) budget 0 () cpu
  rw [Nat.zero_add] at htotal
  exact ⟨k, hleast, Prod.ext htotal hafter⟩

theorem LeastSteps.runForCycles_eq (h : cpu.LeastSteps budget k) :
    cpu.runForCycles budget = (Executed.total (cpu.executions k), cpu.after k) := by
  obtain ⟨j, hleast, hresult⟩ := cpu.exists_leastSteps budget
  rw [hresult, h.unique hleast]

theorem after_cycles_toNat (h : cpu.cycles.toNat + Executed.total (cpu.executions k) < UInt64.size) :
    (cpu.after k).cycles.toNat = cpu.cycles.toNat + Executed.total (cpu.executions k) := by
  rw [after_cycles, UInt64.toNat_add, UInt64.toNat_ofNat', Nat.add_mod_mod, Nat.mod_eq_of_lt h]

/-- The steps that spend a budget are those that bring the counter of cycles to it, unless the
counter overflows. -/
theorem LeastSteps.counter (h : cpu.LeastSteps budget k)
    (hsmall : cpu.cycles.toNat + budget + 7 < UInt64.size) :
    IsLeast {k | cpu.cycles + UInt64.ofNat budget ≤ (cpu.after k).cycles} k := by
  have hsize : UInt64.size = 18446744073709551616 := rfl
  have htarget : (cpu.cycles + UInt64.ofNat budget).toNat = cpu.cycles.toNat + budget := by
    rw [UInt64.toNat_add, UInt64.toNat_ofNat', Nat.add_mod_mod, Nat.mod_eq_of_lt (by omega)]
  have henough : budget ≤ Executed.total (cpu.executions k) := h.1
  have hmost := h.total_le
  refine ⟨?_, fun j hj => Nat.le_of_not_lt fun hlt => ?_⟩
  · apply UInt64.le_iff_toNat_le.mpr
    rw [htarget, after_cycles_toNat (by omega)]
    omega
  · have hbefore := h.total_lt j hlt
    have hreached := UInt64.le_iff_toNat_le.mp hj
    rw [htarget, after_cycles_toNat (by omega)] at hreached
    omega

end

end Nmos6502.Cpu
