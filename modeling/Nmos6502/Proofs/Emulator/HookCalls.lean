import Nmos6502.Proofs.Emulator.BatchSteps

/-!
# The calls of hooks

Hooks that keep a log of their calls besides their own state. They answer as they did without it,
so the log tells which calls are made whatever the hooks do. Main statements: `exists_batched` and
`BatchSteps.batched`, which give the calls of one batch.
-/

set_option autoImplicit false

namespace Nmos6502.Emulator

variable {σ : Type}

inductive Call where
  | step (executed : Executed)
  | batch (cycles : Nat)
  | stop (reason : StopReason)
  deriving DecidableEq, Repr

def Call.step? : Call → Option Executed
  | step executed => some executed
  | _ => none

def Call.batch? : Call → Option Nat
  | batch cycles => some cycles
  | _ => none

def Call.stop? : Call → Option StopReason
  | stop reason => some reason
  | _ => none

def Outcome.closingCalls (cycles : Nat) : Outcome → List Call
  | ongoing => [.batch cycles]
  | stopped .user => [.batch cycles, .stop .user]
  | stopped reason => [.stop reason]

/-- The calls for a batch with these steps. -/
def Outcome.calls (outcome : Outcome) (steps : List Executed) : List Call :=
  steps.map .step ++ outcome.closingCalls (Executed.total steps)

def Outcome.reason? : Outcome → Option StopReason
  | ongoing => none
  | stopped reason => some reason

def Outcome.completes : Outcome → Bool
  | ongoing => true
  | stopped reason => reason == .user

namespace Outcome

variable (outcome : Outcome) (steps : List Executed)

theorem filterMap_step?_calls : (outcome.calls steps).filterMap Call.step? = steps := by
  have hsteps : (steps.map Call.step).filterMap Call.step? = steps := by
    rw [List.filterMap_map]
    exact List.filterMap_some
  rw [calls, List.filterMap_append, hsteps]
  rcases outcome with _ | _ | _ | _ <;> exact List.append_nil _

theorem filterMap_batch?_calls : (outcome.calls steps).filterMap Call.batch? =
    if outcome.completes then [Executed.total steps] else [] := by
  have hsteps : (steps.map Call.step).filterMap Call.batch? = [] := by
    rw [List.filterMap_map]
    exact List.filterMap_eq_nil_iff.mpr fun _ _ => rfl
  rw [calls, List.filterMap_append, hsteps, List.nil_append]
  rcases outcome with _ | _ | _ | _ <;> rfl

theorem filterMap_stop?_calls :
    (outcome.calls steps).filterMap Call.stop? = outcome.reason?.toList := by
  have hsteps : (steps.map Call.step).filterMap Call.stop? = [] := by
    rw [List.filterMap_map]
    exact List.filterMap_eq_nil_iff.mpr fun _ _ => rfl
  rw [calls, List.filterMap_append, hsteps, List.nil_append]
  rcases outcome with _ | _ | _ | _ <;> rfl

end Outcome

def Reply.withLog (reply : Reply σ) (log : List Call) : Reply (σ × List Call) :=
  { state := (reply.state, log), halt := reply.halt }

/-- The same hooks, which log their calls. -/
def Hooks.logged (hooks : Hooks σ) : Hooks (σ × List Call) where
  step executed state :=
    let reply := hooks.step executed state.1
    { reply.toReply.withLog (state.2 ++ [.step executed]) with failure := reply.failure }
  batch cycles state := (hooks.batch cycles state.1).withLog (state.2 ++ [.batch cycles])
  stop reason state := (hooks.stop reason state.1).withLog (state.2 ++ [.stop reason])

def Session.withLog (session : Session σ) (log : List Call) : Session (σ × List Call) :=
  { session with state := (session.state, log) }

def withLog (emulator : Emulator σ) (log : List Call) : Emulator (σ × List Call) where
  cpu := emulator.cpu
  pacing := emulator.pacing
  hooks := emulator.hooks.logged
  session := emulator.session.withLog log

def Batch.withLog (batch : Batch σ) (log : List Call) : Batch (σ × List Call) where
  stopsWith := batch.stopsWith
  cycles := batch.cycles
  session := batch.session.withLog log
  cpu := batch.cpu

namespace Session

variable (session : Session σ) (hooks : Hooks σ) (cpu : Cpu Memory) (log : List Call)

theorem withLog_haltRequested : (session.withLog log).haltRequested = session.haltRequested := rfl

theorem withLog_record (event : Event) :
    (session.withLog log).record event = (session.record event).withLog log := by
  unfold record withLog
  dsimp only
  split <;> rfl

theorem withLog_informed : (session.withLog log).informed hooks.logged cpu =
    (session.informed hooks cpu).withLog (log ++ [.step cpu.step.1]) := by
  unfold informed
  rw [withLog_record]
  rfl

theorem withLog_stop (reason : StopReason) : (session.withLog log).stop reason hooks.logged cpu =
    (session.stop reason hooks cpu).withLog (log ++ [.stop reason]) := by
  have hended : { session.withLog log with running := false } =
      ({ session with running := false } : Session σ).withLog log := rfl
  unfold stop
  dsimp only
  rw [hended, withLog_record]
  rfl

end Session

section
variable {hooks : Hooks σ} {quota spent n : Nat} {session ended : Session σ} {cpu : Cpu Memory}

theorem GoesOn.withLog (h : GoesOn hooks quota spent session cpu) (log : List Call) :
    GoesOn hooks.logged quota spent (session.withLog log) cpu where
  succeeds := h.succeeds
  passes := h.passes
  unhalted := by
    rw [Session.withLog_informed]
    exact h.unhalted
  unspent := h.unspent

theorem Ends.withLog {stopsWith : Option StopReason}
    (h : Ends hooks quota spent session cpu stopsWith ended) (log : List Call) :
    Ends hooks.logged quota spent (session.withLog log) cpu stopsWith
      (ended.withLog (log ++ [.step cpu.step.1])) := by
  cases h with
  | failed fails =>
    rw [← Session.withLog_record, ← Session.withLog_informed]
    exact .failed fails
  | broken succeeds breaks =>
    rw [← Session.withLog_informed]
    exact .broken succeeds breaks
  | completed succeeds passes enough =>
    rw [← Session.withLog_informed]
    refine .completed succeeds passes ?_
    rw [Session.withLog_informed]
    exact enough

theorem BatchSteps.withLog {batch : Batch σ}
    (h : BatchSteps hooks quota spent session cpu n batch) (log : List Call) :
    BatchSteps hooks.logged quota spent (session.withLog log) cpu n
      (batch.withLog (log ++ (cpu.executions (n + 1)).map .step)) := by
  induction h generalizing log with
  | last ends => exact .last (ends.withLog log)
  | @next spent n session cpu batch goesOn rest ih =>
    refine .next (goesOn.withLog log) ?_
    -- The rest of the batch finds the call of this step in the log.
    have hrest := ih (log ++ [.step cpu.step.1])
    rw [List.append_assoc] at hrest
    rw [Session.withLog_informed]
    exact hrest

end

theorem Batch.settle_withLog (batch : Batch σ) (hooks : Hooks σ)
    (hreason : batch.stopsWith ≠ some .user) (log : List Call) :
    (batch.withLog log).settle hooks.logged =
      ((batch.settle hooks).1, (batch.settle hooks).2.withLog
        (log ++ (batch.settle hooks).1.closingCalls batch.cycles)) := by
  have htold : (batch.session.withLog log).take
      (hooks.logged.batch batch.cycles (batch.session.withLog log).state) =
      (batch.session.take (hooks.batch batch.cycles batch.session.state)).withLog
        (log ++ [.batch batch.cycles]) := rfl
  unfold settle Batch.withLog
  dsimp only
  cases hstops : batch.stopsWith with
  | some reason =>
    dsimp only
    rw [Session.withLog_stop]
    -- A stop for the user would be told to the batch hook first, which is not called here.
    cases reason with
    | user => exact absurd hstops hreason
    | brk => rfl
    | error => rfl
  | none =>
    dsimp only
    rw [htold, Session.withLog_haltRequested]
    split
    · rw [Session.withLog_stop, List.append_assoc]
      rfl
    · rw [Session.withLog_record]
      rfl

theorem Batch.settle_running (batch : Batch σ) (hooks : Hooks σ)
    (hrunning : batch.session.running = true) :
    (batch.settle hooks).2.running = (batch.settle hooks).1.reason?.isNone := by
  unfold settle
  cases hstops : batch.stopsWith with
  | some reason => exact Session.stop_running _ _ _ _
  | none =>
    dsimp only
    split
    · exact Session.stop_running _ _ _ _
    · rw [Session.record_running]
      exact hrunning

section
variable (emulator : Emulator σ) (log : List Call)

theorem withLog_hooks : (emulator.withLog log).hooks = emulator.hooks.logged := rfl

theorem withLog_session :
    (emulator.withLog log).session = emulator.session.withLog log := rfl

theorem withLog_isRunning : (emulator.withLog log).isRunning = emulator.isRunning := rfl

theorem runBatch_of_idle (hidle : emulator.isRunning = false) :
    emulator.runBatch = (.error .notRunning, emulator) :=
  if_neg (by rw [Bool.not_eq_true]; exact hidle)

theorem runBatches_of_ongoing {emulator after : Emulator σ} (limit : Nat)
    (h : emulator.runBatch = (.ok .ongoing, after)) :
    emulator.runBatches (limit + 1) = after.runBatches limit := by
  rw [runBatches, h]

theorem runBatches_of_stopped {emulator after : Emulator σ} {reason : StopReason} (limit : Nat)
    (h : emulator.runBatch = (.ok (.stopped reason), after)) :
    emulator.runBatches (limit + 1) = (some reason, after) := by
  rw [runBatches, h]

theorem isRunning_start (stopOnBreak : Bool) : (emulator.start stopOnBreak).isRunning = true :=
  Session.record_running _ _

theorem withLog_start (stopOnBreak : Bool) :
    (emulator.withLog log).start stopOnBreak = (emulator.start stopOnBreak).withLog log := by
  have hbegun : { (emulator.withLog log).session with
        running := true, haltRequested := false, stopOnBreak } =
      ({ emulator.session with
        running := true, haltRequested := false, stopOnBreak } : Session σ).withLog log := rfl
  unfold start
  dsimp only
  rw [hbegun, Session.withLog_record]
  rfl

theorem withLog_step : (emulator.withLog log).step.2 = emulator.step.2.withLog log := by
  unfold step
  dsimp only
  rw [withLog_session, Session.withLog_record]
  rfl

variable {emulator} {n : Nat} {batch : Batch σ}

theorem runBatch_of_batchSteps (hrunning : emulator.isRunning = true)
    (h : BatchSteps emulator.hooks emulator.pacing.cyclesPerBatch.toNat 0 emulator.session
      emulator.cpu n batch) :
    emulator.runBatch = (.ok (batch.settle emulator.hooks).1,
      { emulator with cpu := batch.cpu, session := (batch.settle emulator.hooks).2 }) := by
  rw [h.eq_runSteps]
  exact if_pos hrunning

/-- A batch of `n + 1` instructions, and the outcome that it is answered with. -/
structure Batched (emulator : Emulator σ) (n : Nat) (outcome : Outcome) : Prop where
  answer : emulator.runBatch.1 = .ok outcome
  cpu_eq : emulator.runBatch.2.cpu = emulator.cpu.after (n + 1)
  pacing_eq : emulator.runBatch.2.pacing = emulator.pacing
  running_eq : emulator.runBatch.2.isRunning = outcome.reason?.isNone
  total_lt : Executed.total (emulator.cpu.executions (n + 1)) <
    emulator.pacing.cyclesPerBatch.toNat + 7
  withLog_eq : ∀ log, (emulator.withLog log).runBatch = (.ok outcome,
    emulator.runBatch.2.withLog (log ++ outcome.calls (emulator.cpu.executions (n + 1))))

theorem BatchSteps.batched (hrunning : emulator.isRunning = true)
    (h : BatchSteps emulator.hooks emulator.pacing.cyclesPerBatch.toNat 0 emulator.session
      emulator.cpu n batch) :
    emulator.Batched n (batch.settle emulator.hooks).1 := by
  have hcycles := h.cycles_eq
  rw [Nat.zero_add] at hcycles
  have hbatch := runBatch_of_batchSteps hrunning h
  constructor
  · rw [hbatch]
  · rw [hbatch]
    exact h.cpu_eq
  · rw [hbatch]
  · rw [hbatch]
    exact batch.settle_running _ (h.running_eq.trans hrunning)
  · rw [← hcycles]
    exact h.cycles_lt emulator.pacing.cyclesPerBatch_pos
  · intro log
    have hlogged : (emulator.withLog log).runBatch = _ :=
      runBatch_of_batchSteps hrunning (h.withLog log)
    rw [withLog_hooks, batch.settle_withLog _ h.stopsWith_ne_user] at hlogged
    rw [hlogged, hbatch, Outcome.calls, ← hcycles, ← List.append_assoc]
    rfl

theorem exists_batched (hrunning : emulator.isRunning = true) :
    ∃ n outcome, emulator.Batched n outcome := by
  obtain ⟨n, h⟩ := exists_batchSteps emulator.hooks emulator.pacing.cyclesPerBatch.toNat 0
    emulator.session emulator.cpu
  exact ⟨n, _, h.batched hrunning⟩

end
end Nmos6502.Emulator
