import Mathlib.Order.Bounds.Basic
import Nmos6502.Proofs.Emulator.HookCalls

set_option autoImplicit false

namespace Nmos6502.Emulator

variable {σ : Type}

section
variable (emulator : Emulator σ) (n : Nat)

def stepReply : StepReply σ :=
  emulator.hooks.step (emulator.cpu.after n).step.1
    (emulator.hooks.told emulator.session.state (emulator.cpu.executions n))

def batchReply : Reply σ :=
  emulator.hooks.batch (Executed.total (emulator.cpu.executions (n + 1)))
    (emulator.hooks.told emulator.session.state (emulator.cpu.executions (n + 1)))

def FailsAt : Prop := (emulator.stepReply n).failure ≠ none

def BreaksAt : Prop :=
  (emulator.cpu.after n).step.1.isBreak = true ∧ emulator.session.stopOnBreak = true

/-- A halt is pending, or the step hook has asked for one, when this step is done. -/
def HaltedAt : Prop :=
  emulator.isHaltRequested = true ∨ ∃ m < n + 1, (emulator.stepReply m).halt = true

def SpentAt : Prop :=
  emulator.pacing.cyclesPerBatch.toNat ≤ Executed.total (emulator.cpu.executions (n + 1))

/-- There is a reason to end the batch with this step. -/
def EndsAt : Prop :=
  emulator.FailsAt n ∨ emulator.BreaksAt n ∨ emulator.HaltedAt n ∨ emulator.SpentAt n

instance : Decidable (emulator.FailsAt n) :=
  decidable_of_iff ((emulator.stepReply n).failure.isSome = true) Option.isSome_iff_ne_none

instance : Decidable (emulator.BreaksAt n) := inferInstanceAs (Decidable (_ ∧ _))

instance : Decidable (emulator.HaltedAt n) := inferInstanceAs (Decidable (_ ∨ _))

instance : Decidable (emulator.SpentAt n) := inferInstanceAs (Decidable (_ ≤ _))

instance : Decidable (emulator.EndsAt n) := inferInstanceAs (Decidable (_ ∨ _))

def verdict : Outcome :=
  if emulator.FailsAt n then .stopped .error
  else if emulator.BreaksAt n then .stopped .brk
  else if emulator.HaltedAt n ∨ (emulator.batchReply n).halt = true then .stopped .user
  else .ongoing

end

section
variable (emulator : Emulator σ) (n : Nat)

def sessionAfter : Session σ := emulator.session.after emulator.hooks emulator.cpu n

theorem stepReply_eq : emulator.hooks.step (emulator.cpu.after n).step.1
    (emulator.sessionAfter n).state = emulator.stepReply n := by
  rw [sessionAfter, Session.after_state, stepReply]

theorem batchReply_eq : emulator.hooks.batch (Executed.total (emulator.cpu.executions (n + 1)))
    (emulator.sessionAfter (n + 1)).state = emulator.batchReply n := by
  rw [sessionAfter, Session.after_state, batchReply]

theorem sessionAfter_succ : emulator.sessionAfter (n + 1) =
    (emulator.sessionAfter n).informed emulator.hooks (emulator.cpu.after n) :=
  emulator.session.after_succ _ _ _

theorem sessionAfter_stopOnBreak :
    (emulator.sessionAfter n).stopOnBreak = emulator.session.stopOnBreak :=
  emulator.session.after_stopOnBreak _ _ _

theorem sessionAfter_haltRequested : (emulator.sessionAfter n).haltRequested = true ↔
    emulator.isHaltRequested = true ∨ ∃ m < n, (emulator.stepReply m).halt = true := by
  induction n with
  | zero => simp [sessionAfter, Session.after, isHaltRequested]
  | succ n ih =>
    rw [sessionAfter_succ, Session.informed_haltRequested, stepReply_eq, Bool.or_eq_true, ih,
      or_assoc]
    refine or_congr_right ?_
    simp only [Nat.lt_succ_iff_lt_or_eq, or_and_right, exists_or, exists_eq_left]

theorem haltedAt_iff :
    emulator.HaltedAt n ↔ (emulator.sessionAfter (n + 1)).haltRequested = true :=
  (emulator.sessionAfter_haltRequested (n + 1)).symm

theorem spentAt_iff : emulator.SpentAt n ↔ emulator.pacing.cyclesPerBatch.toNat ≤
    Executed.total (emulator.cpu.executions n) + (emulator.cpu.after n).step.1.cycles := by
  rw [SpentAt, Cpu.total_executions_succ]

variable {emulator} {n}

theorem not_endsAt_of_goesOn
    (h : GoesOn emulator.hooks emulator.pacing.cyclesPerBatch.toNat
      (Executed.total (emulator.cpu.executions n)) (emulator.sessionAfter n)
      (emulator.cpu.after n)) :
    ¬ emulator.EndsAt n := by
  have hsucceeds := h.succeeds
  have hpasses := h.passes
  have hunhalted := h.unhalted
  rw [stepReply_eq] at hsucceeds
  rw [sessionAfter_stopOnBreak] at hpasses
  rw [← sessionAfter_succ] at hunhalted
  -- Each reason to end the batch is one that going on rules out.
  rintro (hfails | ⟨hbreak, hstop⟩ | hhalted | hspent)
  · exact hfails hsucceeds
  · simp [hbreak, hstop] at hpasses
  · simp [(emulator.haltedAt_iff n).mp hhalted] at hunhalted
  · exact Nat.not_le.mpr h.unspent ((emulator.spentAt_iff n).mp hspent)

/-- The reasons to end a batch are tried in the order in which the outcome asks for them. -/
theorem endsAt_of_ends {batch : Batch σ}
    (h : Ends emulator.hooks emulator.pacing.cyclesPerBatch.toNat
      (Executed.total (emulator.cpu.executions n)) (emulator.sessionAfter n)
      (emulator.cpu.after n) batch.stopsWith batch.session)
    (hcycles : batch.cycles = Executed.total (emulator.cpu.executions (n + 1))) :
    emulator.EndsAt n ∧ (batch.settle emulator.hooks).1 = emulator.verdict n := by
  obtain ⟨stopsWith, cycles, session, cpu⟩ := batch
  dsimp only at h hcycles
  subst hcycles
  rw [Batch.settle, verdict]
  cases h with
  | failed fails =>
    rw [stepReply_eq] at fails
    have hfails : emulator.FailsAt n := by simp [FailsAt, fails]
    exact ⟨.inl hfails, (if_pos hfails).symm⟩
  | broken succeeds breaks =>
    rw [stepReply_eq] at succeeds
    rw [sessionAfter_stopOnBreak, Bool.and_eq_true] at breaks
    have hsucceeds : ¬ emulator.FailsAt n := fun hfails => hfails succeeds
    have hbreaks : emulator.BreaksAt n := breaks
    exact ⟨.inr (.inl hbreaks), by rw [if_neg hsucceeds, if_pos hbreaks]⟩
  | completed succeeds passes enough =>
    rw [stepReply_eq] at succeeds
    rw [sessionAfter_stopOnBreak] at passes
    have hsucceeds : ¬ emulator.FailsAt n := fun hfails => hfails succeeds
    have hpasses : ¬ emulator.BreaksAt n := by
      rintro ⟨hbreak, hstop⟩
      simp [hbreak, hstop] at passes
    rw [← sessionAfter_succ] at enough ⊢
    rw [← haltedAt_iff, ← spentAt_iff] at enough
    refine ⟨.inr (.inr enough), ?_⟩
    rw [if_neg hsucceeds, if_neg hpasses]
    simp only [Session.take, batchReply_eq, Bool.or_eq_true, ← haltedAt_iff]
    split <;> rfl

theorem exists_batch_end (hrunning : emulator.isRunning = true) :
    ∃ n, IsLeast {n | emulator.EndsAt n} n ∧ emulator.Batched n (emulator.verdict n) := by
  obtain ⟨n, h⟩ := exists_batchSteps emulator.hooks emulator.pacing.cyclesPerBatch.toNat 0
    emulator.session emulator.cpu
  have hgoesOn := h.goesOn_of_lt
  have hends := h.ends
  have hcycles := h.cycles_eq
  simp only [Nat.zero_add] at hgoesOn hends hcycles
  obtain ⟨hlast, hverdict⟩ := endsAt_of_ends hends hcycles
  have hbatched := h.batched hrunning
  rw [hverdict] at hbatched
  -- The batch went on after every step before, so none of them was a reason to end it.
  refine ⟨n, ⟨hlast, fun m hm => ?_⟩, hbatched⟩
  exact Nat.le_of_not_lt fun hlt => not_endsAt_of_goesOn (hgoesOn m hlt) hm

theorem completes_verdict : (emulator.verdict n).completes = true ↔
    ¬ (emulator.FailsAt n ∨ emulator.BreaksAt n) := by
  unfold verdict
  by_cases hfails : emulator.FailsAt n
  · simp [hfails, Outcome.completes]
  · by_cases hbreaks : emulator.BreaksAt n
    · simp [hfails, hbreaks, Outcome.completes]
    · simp only [hfails, hbreaks, if_false]
      split <;> simp [Outcome.completes]

theorem Outcome.isNone_reason?_iff (outcome : Outcome) :
    outcome.reason?.isNone = true ↔ outcome = .ongoing := by
  cases outcome <;> simp [Outcome.reason?]

/-- A batch of a run executes instructions up to the first behind which the step hook fails, a
software interrupt stops the run, a halt is requested, or the quota is spent. What the batch comes
to is decided in this order, and only a batch that neither failed nor broke is told to the batch
hook. -/
theorem batch_stops (emulator : Emulator σ) (hrunning : emulator.isRunning = true) :
    ∃ n, IsLeast {n | emulator.EndsAt n} n ∧
      let steps := emulator.cpu.executions (n + 1)
      let calls := (emulator.verdict n).calls steps
      emulator.runBatch.1 = .ok (emulator.verdict n) ∧
      emulator.runBatch.2.cpu = emulator.cpu.after (n + 1) ∧
      (emulator.runBatch.2.isRunning = true ↔ emulator.verdict n = .ongoing) ∧
      (∀ log, (emulator.withLog log).runBatch =
        (.ok (emulator.verdict n), emulator.runBatch.2.withLog (log ++ calls))) ∧
      calls.filterMap Call.step? = steps ∧
      calls.filterMap Call.batch? =
        if emulator.FailsAt n ∨ emulator.BreaksAt n then [] else [Executed.total steps] := by
  obtain ⟨n, hleast, hbatched⟩ := exists_batch_end hrunning
  refine ⟨n, hleast, hbatched.answer, hbatched.cpu_eq, ?_, hbatched.withLog_eq,
    Outcome.filterMap_step?_calls _ _, ?_⟩
  · rw [hbatched.running_eq, Outcome.isNone_reason?_iff]
  · rw [Outcome.filterMap_batch?_calls]
    simp only [completes_verdict, ite_not]

end

/-- An emulator with a software interrupt behind an instruction of two cycles, a quota of nine
cycles, and a step hook that asks for a halt and fails when it is called the second time. -/
def contested : Emulator Nat where
  cpu := { memory := Memory.zero.write 0 0xEA }
  pacing := ⟨1000, 9000000⟩
  hooks :=
    { step := fun _ calls =>
        { state := calls + 1
          halt := calls == 1
          failure := if calls = 1 then some "second call" else none } }
  session := { running := true, state := 0 }

theorem batch_stops_contested :
    contested.isRunning = true ∧ contested.FailsAt 1 ∧ contested.BreaksAt 1 ∧
      contested.HaltedAt 1 ∧ contested.SpentAt 1 ∧
      contested.runBatch.1 = .ok (.stopped .error) ∧
      contested.runBatch.2.cpu = contested.cpu.after 2 := by
  have hfails : contested.FailsAt 1 := by decide +kernel
  obtain ⟨n, hleast, hanswer, hcpu, -⟩ := batch_stops contested rfl
  have hends : IsLeast {n | contested.EndsAt n} 1 := by
    have hfirst : ¬ contested.EndsAt 0 := by decide +kernel
    exact ⟨.inl hfails, fun m hm => Nat.pos_of_ne_zero fun hzero => hfirst (hzero ▸ hm)⟩
  obtain rfl := hleast.unique hends
  rw [verdict, if_pos hfails] at hanswer
  exact ⟨rfl, hfails, by decide +kernel, by decide +kernel, by decide +kernel, hanswer, hcpu⟩

end Nmos6502.Emulator
