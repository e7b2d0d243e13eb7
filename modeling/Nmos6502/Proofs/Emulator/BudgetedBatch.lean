import Nmos6502.Proofs.Cpu.Budget
import Nmos6502.Proofs.Emulator.StoppingRule

set_option autoImplicit false

namespace Nmos6502.Emulator

variable {σ : Type}

structure Hooks.StepSilent (hooks : Hooks σ) : Prop where
  succeeds : ∀ executed state, (hooks.step executed state).failure = none
  unhalted : ∀ executed state, (hooks.step executed state).halt = false

/-- In the middle of a run that no software interrupt, no step hook and no pending request ends. -/
structure Uninterrupted (emulator : Emulator σ) : Prop where
  running : emulator.isRunning = true
  unhalted : emulator.isHaltRequested = false
  passes : emulator.session.stopOnBreak = false
  silent : emulator.hooks.StepSilent

section
variable {emulator : Emulator σ} {n : Nat}

theorem uninterrupted_start (hsilent : emulator.hooks.StepSilent) :
    (emulator.start false).Uninterrupted where
  running := isRunning_start emulator false
  unhalted := Session.record_haltRequested _ _
  passes := Session.record_stopOnBreak _ _
  silent := hsilent

namespace Uninterrupted

theorem not_failsAt (h : emulator.Uninterrupted) : ¬ emulator.FailsAt n :=
  fun hfails => hfails (h.silent.succeeds _ _)

theorem not_breaksAt (h : emulator.Uninterrupted) : ¬ emulator.BreaksAt n :=
  fun ⟨_, hstop⟩ => by simp [h.passes] at hstop

theorem not_haltedAt (h : emulator.Uninterrupted) : ¬ emulator.HaltedAt n := by
  rintro (hpending | ⟨m, -, hasked⟩)
  · simp [h.unhalted] at hpending
  · exact Bool.noConfusion (hasked.symm.trans (h.silent.unhalted _ _))

theorem endsAt_iff (h : emulator.Uninterrupted) : emulator.EndsAt n ↔ emulator.SpentAt n := by
  simp [EndsAt, h.not_failsAt, h.not_breaksAt, h.not_haltedAt]

/-- The quota is never zero, so a batch that executes its first step before it looks at the quota
executes no step too many. -/
theorem leastSteps (h : emulator.Uninterrupted) (hleast : IsLeast {n | emulator.EndsAt n} n) :
    emulator.cpu.LeastSteps emulator.pacing.cyclesPerBatch.toNat (n + 1) := by
  refine ⟨h.endsAt_iff.mp hleast.1, fun j hj => ?_⟩
  cases j with
  | zero => exact absurd emulator.pacing.cyclesPerBatch_pos (Nat.not_lt.mpr hj)
  | succ j => exact Nat.succ_le_succ (hleast.2 (h.endsAt_iff.mpr hj))

theorem runBatch_spec (h : emulator.Uninterrupted) :
    let run := emulator.cpu.runForCycles emulator.pacing.cyclesPerBatch.toNat
    emulator.runBatch.2.cpu = run.2 ∧
      ∃ calls, calls.filterMap Call.batch? = [run.1] ∧ ∀ log,
        (emulator.withLog log).runBatch.2 = emulator.runBatch.2.withLog (log ++ calls) := by
  obtain ⟨n, hleast, hbatched⟩ := exists_batch_end h.running
  have hrun := (h.leastSteps hleast).runForCycles_eq
  have hcompletes : (emulator.verdict n).completes = true :=
    completes_verdict.mpr fun hstops => hstops.elim h.not_failsAt h.not_breaksAt
  dsimp only
  rw [hrun]
  refine ⟨hbatched.cpu_eq, (emulator.verdict n).calls (emulator.cpu.executions (n + 1)), ?_, ?_⟩
  · rw [Outcome.filterMap_batch?_calls, if_pos hcompletes]
  · exact fun log => congrArg Prod.snd (hbatched.withLog_eq log)

end Uninterrupted
end

/-- A run on a budget executes the least number of steps that spend it, which are those that bring
the counter of cycles to it. Runs in a row are one run, and so is a batch that nothing interrupts,
which tells its batch hook what the run would return. -/
theorem budgeted_runs {M : Type} [Bus M] (cpu : Cpu M) (emulator : Emulator σ) :
    (∀ budget, cpu.cycles.toNat + budget + 7 < UInt64.size →
      ∃ k, cpu.runForCycles budget = (Executed.total (cpu.executions k), cpu.after k) ∧
        IsLeast {k | budget ≤ Executed.total (cpu.executions k)} k ∧
        IsLeast {k | cpu.cycles + UInt64.ofNat budget ≤ (cpu.after k).cycles} k ∧
        (cpu.after k).cycles.toNat = cpu.cycles.toNat + (cpu.runForCycles budget).1 ∧
        (budget = 0 → (cpu.runForCycles budget).1 = 0) ∧
        (budget ≠ 0 → budget ≤ (cpu.runForCycles budget).1 ∧
          (cpu.runForCycles budget).1 ≤ budget + 6)) ∧
    (∀ first second, cpu.cycles.toNat + first + second + 14 < UInt64.size →
      let run := cpu.runForCycles first
      let rest := run.2.runForCycles second
      run.2.cycles.toNat + second + 7 < UInt64.size ∧
        cpu.cycles.toNat + (run.1 + second) + 7 < UInt64.size ∧
        rest.2 = (cpu.runForCycles (run.1 + second)).2 ∧
        run.1 + rest.1 = (cpu.runForCycles (run.1 + second)).1) ∧
    (emulator.Uninterrupted →
      let run := emulator.cpu.runForCycles emulator.pacing.cyclesPerBatch.toNat
      emulator.runBatch.2.cpu = run.2 ∧
        ∃ calls, calls.filterMap Call.batch? = [run.1] ∧ ∀ log,
          (emulator.withLog log).runBatch.2 = emulator.runBatch.2.withLog (log ++ calls)) := by
  have hsize : UInt64.size = 18446744073709551616 := rfl
  refine ⟨fun budget hsmall => ?spends, fun first second hsmall => ?together,
    fun h => h.runBatch_spec⟩
  case spends =>
    obtain ⟨k, hleast, hrun⟩ := cpu.exists_leastSteps budget
    have hmost := hleast.total_le
    rw [hrun]
    refine ⟨k, rfl, hleast, hleast.counter hsmall, Cpu.after_cycles_toNat (by omega), ?_, ?_⟩
    · rintro rfl
      rw [hleast.eq_zero]
      rfl
    · exact fun _ => ⟨hleast.1, hmost⟩
  case together =>
    obtain ⟨m, hfirst, hrun⟩ := cpu.exists_leastSteps first
    obtain ⟨n, hsecond, hrest⟩ := (cpu.after m).exists_leastSteps second
    have hmost := hfirst.total_le
    have hboth := (hsecond.add m).runForCycles_eq
    rw [hrun]
    dsimp only
    rw [hboth, hrest, Cpu.after_add, Cpu.total_executions_add, Cpu.after_cycles_toNat (by omega)]
    exact ⟨by omega, by omega, rfl, rfl⟩

/-- An emulator whose program is a jump to itself, with a quota of four cycles. -/
def circling : Emulator Unit where
  cpu := { memory := Memory.zero.write 0 0x4C }
  pacing := ⟨1000, 4000000⟩
  session := { state := () }

theorem budgeted_runs_circling :
    let run := circling.cpu.runForCycles 4
    run.1 = 6 ∧ (run.2.runForCycles 3).2 = (circling.cpu.runForCycles 9).2 ∧
      (circling.start false).Uninterrupted ∧ (circling.start false).runBatch.2.cpu = run.2 := by
  have hstarted : (circling.start false).Uninterrupted :=
    uninterrupted_start ⟨fun _ _ => rfl, fun _ _ => rfl⟩
  obtain ⟨hspends, htogether, hbatch⟩ := budgeted_runs circling.cpu (circling.start false)
  obtain ⟨k, hrun, hleast, -⟩ := hspends 4 (by decide)
  have htwo : circling.cpu.LeastSteps 4 2 := by
    have hone : ¬ 4 ≤ Executed.total (circling.cpu.executions 1) := by decide +kernel
    refine ⟨show 4 ≤ _ by decide +kernel, fun j hj => Nat.succ_le_of_lt ?_⟩
    exact Nat.lt_of_not_le fun hle => hone (hj.trans (circling.cpu.strictMono_total.monotone hle))
  have hspent : (circling.cpu.runForCycles 4).1 = 6 := by
    rw [hrun, hleast.unique htwo]
    decide +kernel
  obtain ⟨-, -, hsame, -⟩ := htogether 4 3 (by decide)
  rw [hspent] at hsame
  exact ⟨hspent, hsame, hstarted, (hbatch hstarted).1⟩

end Nmos6502.Emulator
