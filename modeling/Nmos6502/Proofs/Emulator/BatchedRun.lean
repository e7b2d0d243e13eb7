import Nmos6502.Proofs.Emulator.HookCalls

set_option autoImplicit false

namespace Nmos6502.Emulator

variable {σ : Type}

/-- No step hook fails, and no hook asks for a halt before the run has stopped. -/
structure Hooks.Quiet (hooks : Hooks σ) : Prop where
  succeeds : ∀ executed state, (hooks.step executed state).failure = none
  step_halt : ∀ executed state, (hooks.step executed state).halt = false
  batch_halt : ∀ cycles state, (hooks.batch cycles state).halt = false

/-- Steps cut into full batches, which overshoot the quota by less than an instruction, and the
steps of a last one. -/
structure CutInto (quota : Nat) (steps : List Executed) (full : List (List Executed))
    (last : List Executed) : Prop where
  flatten_append : full.flatten ++ last = steps
  full_total : ∀ batch ∈ full, quota ≤ Executed.total batch ∧ Executed.total batch < quota + 7
  last_total : Executed.total last < quota + 7
  last_ne_nil : last ≠ []

namespace CutInto

variable {quota : Nat} {first steps last : List Executed} {full : List (List Executed)}

theorem cons (h : CutInto quota steps full last)
    (hfirst : quota ≤ Executed.total first ∧ Executed.total first < quota + 7) :
    CutInto quota (first ++ steps) (first :: full) last where
  flatten_append := by rw [List.flatten_cons, List.append_assoc, h.flatten_append]
  full_total := by
    intro batch hbatch
    rcases List.mem_cons.mp hbatch with rfl | hrest
    · exact hfirst
    · exact h.full_total batch hrest
  last_total := h.last_total
  last_ne_nil := h.last_ne_nil

theorem sum_total (h : CutInto quota steps full last) :
    (full.map Executed.total).foldr (· + ·) 0 + Executed.total last = Executed.total steps := by
  rw [← Executed.total_flatten, ← Executed.total_append, h.flatten_append]

end CutInto

section
variable {hooks : Hooks σ} {quota spent n : Nat} {session : Session σ} {cpu : Cpu Memory}
  {batch : Batch σ}

theorem BatchSteps.passes (h : BatchSteps hooks quota spent session cpu n batch)
    (hstop : session.stopOnBreak = true) : ∀ m < n, (cpu.after m).step.1.isBreak = false := by
  induction h with
  | last _ => exact fun m hm => absurd hm (Nat.not_lt_zero m)
  | @next spent n session cpu batch goesOn rest ih =>
    intro m hm
    cases m with
    | zero =>
      have hpasses := goesOn.passes
      rwa [hstop, Bool.and_true] at hpasses
    | succ m => exact ih (by rw [Session.informed_stopOnBreak, hstop]) m (Nat.lt_of_succ_lt_succ hm)

/-- Without a disturbance, a batch ends with a software interrupt or when its quota is spent. -/
theorem BatchSteps.broken_or_full (hquiet : hooks.Quiet)
    (h : BatchSteps hooks quota spent session cpu n batch) (hhalt : session.haltRequested = false)
    (hstop : session.stopOnBreak = true) :
    batch.session.haltRequested = false ∧ batch.session.stopOnBreak = true ∧
      (batch.stopsWith = some .brk ∧ (cpu.after n).step.1.isBreak = true ∨
        batch.stopsWith = none ∧ (cpu.after n).step.1.isBreak = false ∧ quota ≤ batch.cycles) := by
  induction h with
  | @last spent session ended cpu stopsWith ends =>
    have hunhalted : (session.informed hooks cpu).haltRequested = false := by
      rw [Session.informed_haltRequested, hhalt, hquiet.step_halt, Bool.or_false]
    have hstopped : (session.informed hooks cpu).stopOnBreak = true := by
      rw [Session.informed_stopOnBreak, hstop]
    cases ends with
    | failed fails =>
      rw [hquiet.succeeds] at fails
      exact absurd fails (by simp)
    | broken succeeds breaks =>
      rw [hstop, Bool.and_true] at breaks
      exact ⟨hunhalted, hstopped, .inl ⟨rfl, breaks⟩⟩
    | completed succeeds passes enough =>
      rw [hstop, Bool.and_true] at passes
      rw [hunhalted] at enough
      exact ⟨hunhalted, hstopped, .inr ⟨rfl, passes, enough.resolve_left (by simp)⟩⟩
  | next goesOn rest ih =>
    exact ih goesOn.unhalted (by rw [Session.informed_stopOnBreak, hstop])

theorem Batch.settle_of_unhalted (hreason : batch.stopsWith = none)
    (hhalt : batch.session.haltRequested = false)
    (hbatch : (hooks.batch batch.cycles batch.session.state).halt = false) :
    batch.settle hooks = (.ongoing,
      (batch.session.take (hooks.batch batch.cycles batch.session.state)).record
        (.batchDone batch.cycles)) := by
  unfold settle
  rw [hreason]
  refine if_neg ?_
  simp [Session.take, hhalt, hbatch]

end

/-- In the middle of a run that only a software interrupt can end. -/
structure AwaitsBreak (emulator : Emulator σ) : Prop where
  running : emulator.isRunning = true
  unhalted : emulator.isHaltRequested = false
  stopOnBreak : emulator.session.stopOnBreak = true
  quiet : emulator.hooks.Quiet

inductive BatchTo (emulator : Emulator σ) (n : Nat) : Outcome → Prop where
  | broken (breaks : (emulator.cpu.after n).step.1.isBreak = true) :
      BatchTo emulator n (.stopped .brk)
  | full (passes : (emulator.cpu.after n).step.1.isBreak = false)
      (enough : emulator.pacing.cyclesPerBatch.toNat ≤
        Executed.total (emulator.cpu.executions (n + 1)))
      (awaits : emulator.runBatch.2.AwaitsBreak) :
      BatchTo emulator n .ongoing

section
variable {emulator : Emulator σ}

theorem AwaitsBreak.exists_batchTo (h : emulator.AwaitsBreak) :
    ∃ n outcome, emulator.Batched n outcome ∧ emulator.BatchTo n outcome ∧
      ∀ m < n, (emulator.cpu.after m).step.1.isBreak = false := by
  obtain ⟨n, steps⟩ := exists_batchSteps emulator.hooks emulator.pacing.cyclesPerBatch.toNat 0
    emulator.session emulator.cpu
  generalize runSteps emulator.hooks emulator.pacing.cyclesPerBatch.toNat 0 emulator.session
    emulator.cpu = batch at steps
  have hbatched := steps.batched h.running
  refine ⟨n, _, hbatched, ?_, steps.passes h.stopOnBreak⟩
  obtain ⟨hhalt, hstop, hends⟩ := steps.broken_or_full h.quiet h.unhalted h.stopOnBreak
  rcases hends with ⟨hreason, hbreak⟩ | ⟨hreason, hpass, henough⟩
  · have hsettled : (batch.settle emulator.hooks).1 = .stopped .brk := by
      rw [Batch.settle, hreason]
    rw [hsettled]
    exact .broken hbreak
  · have hquiet := h.quiet.batch_halt batch.cycles batch.session.state
    have hsettled := Batch.settle_of_unhalted hreason hhalt hquiet
    have hrunning := hbatched.running_eq
    rw [hsettled] at hrunning ⊢
    rw [steps.cycles_eq, Nat.zero_add] at henough
    refine .full hpass henough ⟨hrunning, ?_, ?_, ?_⟩
    all_goals rw [runBatch_of_batchSteps h.running steps, hsettled]
    · simp [isHaltRequested, Session.take, hhalt, hquiet]
    · simp [Session.take, hstop]
    · exact h.quiet

theorem AwaitsBreak.runBatches {limit : Nat} (h : emulator.AwaitsBreak) {n : Nat}
    (hbreak : (emulator.cpu.after n).step.1.isBreak = true)
    (hbefore : ∀ m < n, (emulator.cpu.after m).step.1.isBreak = false) (hlimit : n < limit) :
    ∃ full last after,
      CutInto emulator.pacing.cyclesPerBatch.toNat (emulator.cpu.executions (n + 1)) full last ∧
      after.cpu = emulator.cpu.after (n + 1) ∧
      emulator.runBatches limit = (some .brk, after) ∧
      ∀ log, (emulator.withLog log).runBatches limit = (some .brk, after.withLog
        (log ++ (full.flatMap Outcome.ongoing.calls ++ (Outcome.stopped .brk).calls last))) := by
  induction limit generalizing emulator n with
  | zero => exact absurd hlimit (Nat.not_lt_zero n)
  | succ limit ih =>
    obtain ⟨j, outcome, batched, hto, hpass⟩ := h.exists_batchTo
    -- The batch cannot get past the first software interrupt, and without one it is a full batch.
    have hjn : j ≤ n := Nat.le_of_not_lt fun hlt => by simp [hpass n hlt] at hbreak
    cases hto with
    | broken breaks =>
      obtain rfl : j = n :=
        (Nat.lt_or_eq_of_le hjn).resolve_left fun hlt => by simp [hbefore j hlt] at breaks
      refine ⟨[], emulator.cpu.executions (j + 1), emulator.runBatch.2, ?_, batched.cpu_eq,
        ?_, ?_⟩
      · exact ⟨rfl, by simp, batched.total_lt, by simp [Cpu.executions]⟩
      · exact runBatches_of_stopped limit (Prod.ext batched.answer rfl)
      · exact fun log => runBatches_of_stopped limit (batched.withLog_eq log)
    | full passes enough awaits =>
      have hlt : j < n := (Nat.lt_or_eq_of_le hjn).resolve_right fun heq => by
        simp [← heq, passes] at hbreak
      obtain ⟨k, rfl⟩ := Nat.exists_eq_add_of_le (Nat.succ_le_of_lt hlt)
      have hafter : ∀ m, emulator.runBatch.2.cpu.after m = emulator.cpu.after (j + 1 + m) := by
        intro m
        rw [batched.cpu_eq]
        exact (emulator.cpu.after_add (j + 1) m).symm
      have hbreak' : (emulator.runBatch.2.cpu.after k).step.1.isBreak = true := by
        rw [hafter]
        exact hbreak
      have hbefore' : ∀ m < k, (emulator.runBatch.2.cpu.after m).step.1.isBreak = false := by
        intro m hm
        rw [hafter]
        exact hbefore (j + 1 + m) (by omega)
      obtain ⟨full, last, after, hcut, hend, hrun, hcalls⟩ := ih awaits hbreak' hbefore' (by omega)
      refine ⟨emulator.cpu.executions (j + 1) :: full, last, after, ?_, ?_, ?_, ?_⟩
      · rw [Nat.add_assoc, Cpu.executions_add, ← batched.cpu_eq]
        rw [batched.pacing_eq] at hcut
        exact hcut.cons ⟨enough, batched.total_lt⟩
      · exact hend.trans (hafter (k + 1))
      · rw [runBatches_of_ongoing limit (Prod.ext batched.answer rfl), hrun]
      · intro log
        rw [runBatches_of_ongoing limit (batched.withLog_eq log), hcalls, List.flatMap_cons,
          List.append_assoc, List.append_assoc]

/-- A run until a software interrupt executes the steps that the processor would take by itself, the
first software interrupt being the last of them. The pacing decides nothing else than where these
steps are cut into batches. -/
theorem run_until_break (emulator : Emulator σ) (hquiet : emulator.hooks.Quiet) {n : Nat}
    (hbreak : (emulator.cpu.after n).step.1.isBreak = true)
    (hbefore : ∀ m < n, (emulator.cpu.after m).step.1.isBreak = false)
    (pacing : Pacing) {limit : Nat} (hlimit : n < limit) :
    let steps := emulator.cpu.executions (n + 1)
    ∃ calls full last after,
      { emulator with pacing }.run limit true = (some .brk, after) ∧
      ({ emulator with pacing }.withLog []).run limit true = (some .brk, after.withLog calls) ∧
      after.cpu = emulator.cpu.after (n + 1) ∧
      after.cpu.cycles = emulator.cpu.cycles + UInt64.ofNat (Executed.total steps) ∧
      calls = full.flatMap Outcome.ongoing.calls ++ (Outcome.stopped .brk).calls last ∧
      calls.filterMap Call.step? = steps ∧
      calls.filterMap Call.batch? = full.map Executed.total ∧
      CutInto pacing.cyclesPerBatch.toNat steps full last ∧
      (full.map Executed.total).foldr (· + ·) 0 + Executed.total last = Executed.total steps := by
  have hunhalted : ({ emulator with pacing }.start true).isHaltRequested = false :=
    Session.record_haltRequested _ _
  have hstop : ({ emulator with pacing }.start true).session.stopOnBreak = true :=
    Session.record_stopOnBreak _ _
  have hstarted : ({ emulator with pacing }.start true).AwaitsBreak :=
    ⟨isRunning_start _ true, hunhalted, hstop, hquiet⟩
  obtain ⟨full, last, after, hcut, hend, hrun, hcalls⟩ := hstarted.runBatches hbreak hbefore hlimit
  have hcpu : after.cpu = emulator.cpu.after (n + 1) := hend
  have hflat : full.flatten ++ last = emulator.cpu.executions (n + 1) := hcut.flatten_append
  refine ⟨_, full, last, after, hrun, ?_, hcpu, ?_, rfl, ?_, ?_, hcut, hcut.sum_total⟩
  · rw [run, withLog_start, hcalls, List.nil_append]
  · rw [hcpu, Cpu.after_cycles]
  · rw [List.filterMap_append, List.filterMap_flatMap]
    simp only [Outcome.filterMap_step?_calls]
    rw [List.flatMap_id', hflat]
  · rw [List.filterMap_append, List.filterMap_flatMap]
    simp only [Outcome.filterMap_batch?_calls]
    exact (List.append_nil _).trans List.map_eq_flatMap.symm

end

/-- An emulator whose program counts down from two and then breaks, and whose step hook counts the
steps. -/
def countdown : Emulator Nat where
  cpu :=
    { memory := [0xA2, 0x02, 0xCA, 0xD0, 0xFD].zipIdx.foldl
        (fun memory (byte, i) => memory.write (UInt16.ofNat (0x10 + i)) byte) .zero
      registers := { pc := 0x10 } }
  hooks := { step := fun _ steps => { state := steps + 1 } }
  session := { state := 0 }

theorem run_until_break_countdown :
    countdown.hooks.Quiet ∧ (countdown.cpu.after 5).step.1.isBreak = true ∧
      (∀ m < 5, (countdown.cpu.after m).step.1.isBreak = false) ∧
      ∃ first second,
        { countdown with pacing := ⟨1000, 3000000⟩ }.run 6 true = (some .brk, first) ∧
        { countdown with pacing := ⟨1000, 0⟩ }.run 9 true = (some .brk, second) ∧
        first.cpu = second.cpu := by
  have hquiet : countdown.hooks.Quiet := ⟨fun _ _ => rfl, fun _ _ => rfl, fun _ _ => rfl⟩
  have hbreak : (countdown.cpu.after 5).step.1.isBreak = true := by decide +kernel
  have hbefore : ∀ m < 5, (countdown.cpu.after m).step.1.isBreak = false := by decide +kernel
  obtain ⟨-, -, -, first, hfirst, -, hcpu, -⟩ :=
    run_until_break countdown hquiet hbreak hbefore ⟨1000, 3000000⟩ (show 5 < 6 by decide)
  obtain ⟨-, -, -, second, hsecond, -, hcpu', -⟩ :=
    run_until_break countdown hquiet hbreak hbefore ⟨1000, 0⟩ (show 5 < 9 by decide)
  exact ⟨hquiet, hbreak, hbefore, first, second, hfirst, hsecond, hcpu.trans hcpu'.symm⟩

end Nmos6502.Emulator
