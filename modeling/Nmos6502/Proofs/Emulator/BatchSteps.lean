import Nmos6502.Emulator.Run
import Nmos6502.Proofs.Cpu.Executions

/-!
# The steps of a batch

A batch as a relation: each step but the last leaves the batch going on, and the last one ends it.
Main statements: `exists_batchSteps` and `BatchSteps.eq_runSteps`, which tie the relation to
`runSteps`, `BatchSteps.goesOn_of_lt` and `BatchSteps.ends`, which tell what each of its steps does,
and `BatchSteps.cycles_lt`.
-/

set_option autoImplicit false

namespace Nmos6502.Emulator

variable {σ : Type}

def Hooks.told (hooks : Hooks σ) (state : σ) (steps : List Executed) : σ :=
  steps.foldl (fun state executed => (hooks.step executed state).state) state

namespace Session

variable (session : Session σ) (event : Event)

@[simp]
theorem record_running : (session.record event).running = session.running := by
  unfold record
  split <;> rfl

@[simp]
theorem record_haltRequested : (session.record event).haltRequested = session.haltRequested := by
  unfold record
  split <;> rfl

@[simp]
theorem record_stopOnBreak : (session.record event).stopOnBreak = session.stopOnBreak := by
  unfold record
  split <;> rfl

def informed (hooks : Hooks σ) (cpu : Cpu Memory) : Session σ :=
  (session.record (.executed cpu.step.1 cpu.step.2.registers)).take
    (hooks.step cpu.step.1 session.state).toReply

variable (hooks : Hooks σ) (cpu : Cpu Memory)

@[simp]
theorem informed_running : (session.informed hooks cpu).running = session.running :=
  session.record_running _

@[simp]
theorem informed_stopOnBreak : (session.informed hooks cpu).stopOnBreak = session.stopOnBreak :=
  session.record_stopOnBreak _

theorem stop_running (reason : StopReason) :
    (session.stop reason hooks cpu).running = false :=
  record_running _ _

theorem informed_haltRequested : (session.informed hooks cpu).haltRequested =
    (session.haltRequested || (hooks.step cpu.step.1 session.state).halt) := by
  simp only [informed, take, record_haltRequested]

def after (hooks : Hooks σ) : Session σ → Cpu Memory → Nat → Session σ
  | session, _, 0 => session
  | session, cpu, n + 1 => (session.informed hooks cpu).after hooks cpu.step.2 n

theorem after_succ (n : Nat) : session.after hooks cpu (n + 1) =
    (session.after hooks cpu n).informed hooks (cpu.after n) := by
  induction n generalizing session cpu with
  | zero => rfl
  | succ n ih => rw [after, ih, after, Cpu.after]

theorem after_state (n : Nat) :
    (session.after hooks cpu n).state = hooks.told session.state (cpu.executions n) := by
  induction n generalizing session cpu with
  | zero => rfl
  | succ n ih =>
    rw [after, ih]
    rfl

theorem after_stopOnBreak (n : Nat) :
    (session.after hooks cpu n).stopOnBreak = session.stopOnBreak := by
  induction n generalizing session cpu with
  | zero => rfl
  | succ n ih => rw [after, ih, informed_stopOnBreak]

end Session

/-- The next step does not end the batch. -/
structure GoesOn (hooks : Hooks σ) (quota spent : Nat) (session : Session σ) (cpu : Cpu Memory) :
    Prop where
  succeeds : (hooks.step cpu.step.1 session.state).failure = none
  passes : (cpu.step.1.isBreak && session.stopOnBreak) = false
  unhalted : (session.informed hooks cpu).haltRequested = false
  unspent : spent + cpu.step.1.cycles < quota

/-- The next step ends the batch: what stops the run at once, and the session. -/
inductive Ends (hooks : Hooks σ) (quota spent : Nat) (session : Session σ) (cpu : Cpu Memory) :
    Option StopReason → Session σ → Prop where
  | failed {failure : String}
      (fails : (hooks.step cpu.step.1 session.state).failure = some failure) :
      Ends hooks quota spent session cpu (some .error)
        ((session.informed hooks cpu).record (.hookFailed cpu.step.2.registers.pc failure))
  | broken
      (succeeds : (hooks.step cpu.step.1 session.state).failure = none)
      (breaks : (cpu.step.1.isBreak && session.stopOnBreak) = true) :
      Ends hooks quota spent session cpu (some .brk) (session.informed hooks cpu)
  | completed
      (succeeds : (hooks.step cpu.step.1 session.state).failure = none)
      (passes : (cpu.step.1.isBreak && session.stopOnBreak) = false)
      (enough : (session.informed hooks cpu).haltRequested = true ∨
        quota ≤ spent + cpu.step.1.cycles) :
      Ends hooks quota spent session cpu none (session.informed hooks cpu)

/-- From here the batch goes on for `n` steps, and ends with the step after them. -/
inductive BatchSteps (hooks : Hooks σ) (quota : Nat) :
    Nat → Session σ → Cpu Memory → Nat → Batch σ → Prop where
  | last {spent : Nat} {session ended : Session σ} {cpu : Cpu Memory}
      {stopsWith : Option StopReason}
      (ends : Ends hooks quota spent session cpu stopsWith ended) :
      BatchSteps hooks quota spent session cpu 0
        { stopsWith, cycles := spent + cpu.step.1.cycles, session := ended, cpu := cpu.step.2 }
  | next {spent n : Nat} {session : Session σ} {cpu : Cpu Memory} {batch : Batch σ}
      (goesOn : GoesOn hooks quota spent session cpu)
      (rest : BatchSteps hooks quota (spent + cpu.step.1.cycles) (session.informed hooks cpu)
        cpu.step.2 n batch) :
      BatchSteps hooks quota spent session cpu (n + 1) batch

section
variable {hooks : Hooks σ} {quota spent : Nat} {session : Session σ} {cpu : Cpu Memory}

theorem runSteps_of_ends {stopsWith : Option StopReason} {ended : Session σ}
    (h : Ends hooks quota spent session cpu stopsWith ended) :
    runSteps hooks quota spent session cpu =
      { stopsWith, cycles := spent + cpu.step.1.cycles, session := ended, cpu := cpu.step.2 } := by
  rw [runSteps]
  cases h with
  | failed fails => simp only [fails, Session.informed]
  | broken succeeds breaks =>
    rw [← session.informed_stopOnBreak hooks cpu] at breaks
    simp only [succeeds]
    exact if_pos breaks
  | completed succeeds passes enough =>
    rw [← session.informed_stopOnBreak hooks cpu] at passes
    simp only [succeeds]
    refine (if_neg (by rw [Bool.not_eq_true]; exact passes)).trans ?_
    by_cases halted : (session.informed hooks cpu).haltRequested = true
    · exact if_pos halted
    · exact (if_neg halted).trans (if_pos (enough.resolve_left halted))

theorem runSteps_of_goesOn (h : GoesOn hooks quota spent session cpu) :
    runSteps hooks quota spent session cpu =
      runSteps hooks quota (spent + cpu.step.1.cycles) (session.informed hooks cpu) cpu.step.2 := by
  have passes := h.passes
  rw [← session.informed_stopOnBreak hooks cpu] at passes
  rw [runSteps]
  simp only [h.succeeds]
  refine (if_neg (by rw [Bool.not_eq_true]; exact passes)).trans ?_
  refine (if_neg (by rw [Bool.not_eq_true]; exact h.unhalted)).trans ?_
  exact if_neg (Nat.not_le.mpr h.unspent)

theorem ends_or_goesOn (hooks : Hooks σ) (quota spent : Nat) (session : Session σ)
    (cpu : Cpu Memory) :
    (∃ stopsWith ended, Ends hooks quota spent session cpu stopsWith ended) ∨
      GoesOn hooks quota spent session cpu := by
  cases hfailure : (hooks.step cpu.step.1 session.state).failure with
  | some failure => exact .inl ⟨_, _, .failed hfailure⟩
  | none =>
    cases hbreak : cpu.step.1.isBreak && session.stopOnBreak with
    | true => exact .inl ⟨_, _, .broken hfailure hbreak⟩
    | false =>
      cases hhalt : (session.informed hooks cpu).haltRequested with
      | true => exact .inl ⟨_, _, .completed hfailure hbreak (.inl hhalt)⟩
      | false =>
        by_cases hspent : quota ≤ spent + cpu.step.1.cycles
        · exact .inl ⟨_, _, .completed hfailure hbreak (.inr hspent)⟩
        · exact .inr ⟨hfailure, hbreak, hhalt, Nat.lt_of_not_le hspent⟩

theorem exists_batchSteps (hooks : Hooks σ) (quota spent : Nat) (session : Session σ)
    (cpu : Cpu Memory) :
    ∃ n, BatchSteps hooks quota spent session cpu n (runSteps hooks quota spent session cpu) := by
  -- The induction is on the cycles that are left, of which each step takes some.
  induction hleft : quota - spent using Nat.strongRecOn generalizing spent session cpu with
  | ind left ih =>
    rcases ends_or_goesOn hooks quota spent session cpu with ⟨stopsWith, ended, ends⟩ | goesOn
    · rw [runSteps_of_ends ends]
      exact ⟨0, .last ends⟩
    · have hpos := cpu.step_cycles_pos
      have hunspent := goesOn.unspent
      obtain ⟨n, rest⟩ := ih (quota - (spent + cpu.step.1.cycles)) (by omega) _
        (session.informed hooks cpu) cpu.step.2 rfl
      rw [runSteps_of_goesOn goesOn]
      exact ⟨n + 1, .next goesOn rest⟩

namespace BatchSteps

variable {n : Nat} {batch : Batch σ}

theorem eq_runSteps (h : BatchSteps hooks quota spent session cpu n batch) :
    batch = runSteps hooks quota spent session cpu := by
  induction h with
  | last ends => exact (runSteps_of_ends ends).symm
  | next goesOn _ ih => exact ih.trans (runSteps_of_goesOn goesOn).symm

theorem cpu_eq (h : BatchSteps hooks quota spent session cpu n batch) :
    batch.cpu = cpu.after (n + 1) := by
  induction h with
  | last ends => rfl
  | next goesOn rest ih => exact ih

theorem cycles_eq (h : BatchSteps hooks quota spent session cpu n batch) :
    batch.cycles = spent + Executed.total (cpu.executions (n + 1)) := by
  induction h with
  | last ends => rfl
  | next goesOn rest ih =>
    rw [ih, Nat.add_assoc]
    rfl

theorem goesOn_of_lt (h : BatchSteps hooks quota spent session cpu n batch) :
    ∀ m < n, GoesOn hooks quota (spent + Executed.total (cpu.executions m))
      (session.after hooks cpu m) (cpu.after m) := by
  induction h with
  | last _ => exact fun m hm => absurd hm (Nat.not_lt_zero m)
  | next goesOn rest ih =>
    intro m hm
    cases m with
    | zero => exact goesOn
    | succ m =>
      rw [Cpu.executions, Executed.total, ← Nat.add_assoc]
      exact ih m (Nat.lt_of_succ_lt_succ hm)

theorem ends (h : BatchSteps hooks quota spent session cpu n batch) :
    Ends hooks quota (spent + Executed.total (cpu.executions n)) (session.after hooks cpu n)
      (cpu.after n) batch.stopsWith batch.session := by
  induction h with
  | last ends => exact ends
  | next goesOn rest ih =>
    rw [Cpu.executions, Executed.total, ← Nat.add_assoc]
    exact ih

/-- A batch overshoots its quota by less than the longest instruction. -/
theorem cycles_lt (h : BatchSteps hooks quota spent session cpu n batch) (hspent : spent < quota) :
    batch.cycles < quota + 7 := by
  induction h with
  | @last spent _ _ cpu _ ends =>
    have hmost := cpu.step_cycles_le
    change spent + cpu.step.1.cycles < quota + 7
    omega
  | next goesOn rest ih => exact ih goesOn.unspent

theorem running_eq (h : BatchSteps hooks quota spent session cpu n batch) :
    batch.session.running = session.running := by
  induction h with
  | last ends => cases ends <;> simp
  | next goesOn rest ih => rw [ih, Session.informed_running]

theorem stopsWith_ne_user (h : BatchSteps hooks quota spent session cpu n batch) :
    batch.stopsWith ≠ some .user := by
  induction h with
  | last ends => cases ends <;> simp
  | next goesOn rest ih => exact ih

end BatchSteps
end
end Nmos6502.Emulator
