import Mathlib.Data.List.Forall2
import Nmos6502.Proofs.Emulator.History
import Nmos6502.Proofs.Memory.Load

set_option autoImplicit false

namespace Nmos6502.Emulator

variable {σ : Type}

/-- The calls that an entry brings: those of its batch if it was answered, and none otherwise. -/
def Entry.Calls : Entry σ → List Call → Prop
  | .batch before (.ok outcome) after, calls =>
    ∃ n, after.cpu = before.cpu.after (n + 1) ∧
      calls = outcome.calls (before.cpu.executions (n + 1))
  | _, calls => calls = []

/-- A completed batch is told to the batch hook with the cycles of the steps that the step hook was
told, and the stop hook is told the reason that is answered. -/
theorem Entry.Calls.told {entry : Entry σ} {calls : List Call} (h : entry.Calls calls) :
    calls.filterMap Call.batch? =
        (if entry.completes then [Executed.total (calls.filterMap Call.step?)] else []) ∧
      calls.filterMap Call.stop? = entry.stop?.toList := by
  rcases entry with _ | ⟨before, _ | outcome, after⟩
  · rw [show calls = [] from h]
    exact ⟨rfl, rfl⟩
  · rw [show calls = [] from h]
    exact ⟨rfl, rfl⟩
  · obtain ⟨n, -, rfl⟩ := h
    rw [outcome.filterMap_step?_calls]
    exact ⟨outcome.filterMap_batch?_calls _, outcome.filterMap_stop?_calls _⟩

theorem exists_calls_runBatch (emulator : Emulator σ) :
    ∃ calls, emulator.batchEntry.Calls calls ∧ ∀ log, (emulator.withLog log).runBatch =
      (emulator.runBatch.1, emulator.runBatch.2.withLog (log ++ calls)) := by
  cases hrunning : emulator.isRunning with
  | false =>
    have hidle := runBatch_of_idle emulator hrunning
    refine ⟨[], ?_, fun log => ?_⟩
    · rw [batchEntry, hidle]
      rfl
    · rw [runBatch_of_idle (emulator.withLog log) hrunning, hidle, List.append_nil]
  | true =>
    obtain ⟨n, outcome, h⟩ := exists_batched hrunning
    refine ⟨outcome.calls (emulator.cpu.executions (n + 1)), ?_, fun log => ?_⟩
    · rw [batchEntry, h.answer]
      exact ⟨n, h.cpu_eq, rfl⟩
    · rw [h.withLog_eq, h.answer]

theorem exists_calls_runBatches (limit : Nat) (emulator : Emulator σ) :
    ∃ calls, List.Forall₂ Entry.Calls (emulator.batchEntries limit) calls ∧
      ∀ log, (emulator.withLog log).runBatches limit =
        ((emulator.runBatches limit).1,
          (emulator.runBatches limit).2.withLog (log ++ calls.flatten)) := by
  induction limit generalizing emulator with
  | zero => exact ⟨[], .nil, fun log => by rw [List.flatten_nil, List.append_nil]; rfl⟩
  | succ limit ih =>
    obtain ⟨first, hfirst, hlogged⟩ := exists_calls_runBatch emulator
    rw [runBatches, batchEntries]
    rcases hbatch : emulator.runBatch with ⟨misuse | ⟨_ | reason⟩, after⟩
    -- A refused batch ends the run with a record only, which is no call.
    · refine ⟨[first], .cons hfirst .nil, fun log => ?_⟩
      rw [runBatches, hlogged, hbatch]
      dsimp only
      rw [withLog_session, Session.withLog_record, List.flatten_singleton]
      rfl
    · obtain ⟨calls, hcalls, hrest⟩ := ih after
      refine ⟨first :: calls, .cons hfirst hcalls, fun log => ?_⟩
      rw [runBatches, hlogged, hbatch, List.flatten_cons, ← List.append_assoc]
      exact hrest (log ++ first)
    · refine ⟨[first], .cons hfirst .nil, fun log => ?_⟩
      rw [runBatches, hlogged, hbatch, List.flatten_singleton]

theorem Request.perform_withLog {request : Request} {emulator : Emulator σ}
    (h : request.entries emulator = []) (log : List Call) :
    request.perform (emulator.withLog log) = (request.perform emulator).withLog log := by
  cases request with
  | start stopOnBreak => exact nomatch h
  | runBatch => exact nomatch h
  | run limit stopOnBreak => exact nomatch h
  | step => exact emulator.withLog_step log
  | halt =>
    rw [perform, perform, Emulator.halt, Emulator.halt, withLog_isRunning]
    split <;> rfl
  | requestHalt => rfl
  | reset hard =>
    rw [perform, perform, Emulator.tryReset, Emulator.tryReset, withLog_isRunning]
    split <;> rfl
  | load bytes address => rfl
  | edit change => rfl

theorem Request.exists_calls (request : Request) (emulator : Emulator σ) :
    ∃ calls, List.Forall₂ Entry.Calls (request.entries emulator) calls ∧
      ∀ log, request.perform (emulator.withLog log) =
        (request.perform emulator).withLog (log ++ calls.flatten) := by
  cases request with
  | start stopOnBreak =>
    refine ⟨[[]], .cons rfl .nil, fun log => ?_⟩
    rw [perform, withLog_start, List.flatten_singleton, List.append_nil]
    rfl
  | runBatch =>
    obtain ⟨calls, hcalls, hlogged⟩ := exists_calls_runBatch emulator
    refine ⟨[calls], .cons hcalls .nil, fun log => ?_⟩
    rw [perform, hlogged, List.flatten_singleton]
    rfl
  | run limit stopOnBreak =>
    obtain ⟨calls, hcalls, hlogged⟩ :=
      exists_calls_runBatches limit (emulator.start stopOnBreak)
    refine ⟨[] :: calls, .cons rfl hcalls, fun log => ?_⟩
    rw [perform, Emulator.run, withLog_start, hlogged]
    rfl
  | _ =>
    refine ⟨[], .nil, fun log => ?_⟩
    rw [perform_withLog rfl, List.flatten_nil, List.append_nil]

theorem exists_calls_performAll (requests : List Request) (emulator : Emulator σ) :
    ∃ calls, List.Forall₂ Entry.Calls (history requests emulator) calls ∧
      ∀ log, performAll requests (emulator.withLog log) =
        (performAll requests emulator).withLog (log ++ calls.flatten) := by
  induction requests generalizing emulator with
  | nil => exact ⟨[], .nil, fun log => by rw [List.flatten_nil, List.append_nil]; rfl⟩
  | cons request requests ih =>
    obtain ⟨first, hfirst, hlogged⟩ := request.exists_calls emulator
    obtain ⟨calls, hcalls, hrest⟩ := ih (request.perform emulator)
    refine ⟨first ++ calls, List.rel_append hfirst hcalls, fun log => ?_⟩
    have hcons (other : Emulator (σ × List Call)) :
        performAll (request :: requests) other = performAll requests (request.perform other) := rfl
    rw [hcons, hlogged, hrest, List.flatten_append, List.append_assoc]
    rfl

theorem tryLoad_of_large (emulator : Emulator σ) {bytes : List UInt8} {address : UInt16}
    (hlarge : 65536 < address.toNat + bytes.length) :
    emulator.tryLoad bytes address = (.error ⟨address, bytes.length⟩, emulator) := by
  rw [tryLoad, Memory.tryLoad_of_large _ hlarge]

/-- In a run no batch is refused. It comes to as many batches as it has entries, and answers the
reason for which the last of them is stopped. -/
theorem runBatches_spec (limit : Nat) {emulator : Emulator σ}
    (hrunning : emulator.isRunning = true) :
    (∀ entry ∈ emulator.batchEntries limit, entry.misuse? = none) ∧
      (emulator.batchEntries limit).filterMap Entry.stop? = (emulator.runBatches limit).1.toList ∧
      (emulator.runBatches limit).2 =
        performAll (List.replicate (emulator.batchEntries limit).length .runBatch) emulator := by
  induction limit generalizing emulator with
  | zero => exact ⟨fun _ h => absurd h List.not_mem_nil, rfl, rfl⟩
  | succ limit ih =>
    obtain ⟨n, outcome, h⟩ := exists_batched hrunning
    have hbatch : emulator.runBatch = (.ok outcome, emulator.runBatch.2) := Prod.ext h.answer rfl
    rw [runBatches, batchEntries, batchEntry, h.answer]
    cases outcome with
    | ongoing =>
      obtain ⟨hanswered, hreason, hend⟩ := ih h.running_eq
      rw [hbatch]
      refine ⟨List.forall_mem_cons.mpr ⟨rfl, hanswered⟩, hreason, ?_⟩
      exact hend
    | stopped reason =>
      rw [hbatch]
      exact ⟨List.forall_mem_cons.mpr ⟨rfl, fun _ h => absurd h List.not_mem_nil⟩, rfl, rfl⟩

/-- Whatever is asked of an emulator that does not run at first, and whatever its hooks do: it runs
exactly if a run was started that was not stopped afterwards, its hooks are called for batches that
are answered, and for nothing else, and what is refused changes nothing. -/
theorem life_cycle (emulator : Emulator σ) (hidle : emulator.isRunning = false)
    (requests : List Request) :
    let now := performAll requests emulator
    let past := history requests emulator
    (now.isRunning = true ↔ Underway past) ∧
      (∃ calls,
        performAll requests (emulator.withLog []) = now.withLog calls.flatten ∧
        List.Forall₂ Entry.Calls past calls ∧
        List.Forall₂ (fun entry taken =>
          taken.filterMap Call.batch? =
              (if entry.completes then [Executed.total (taken.filterMap Call.step?)] else []) ∧
            taken.filterMap Call.stop? = entry.stop?.toList) past calls) ∧
      (now.isRunning = false → now.runBatch = (.error .notRunning, now) ∧
        ∀ log, (now.withLog log).runBatch = (.error .notRunning, now.withLog log)) ∧
      (now.isRunning = true → ∀ hard, now.reset hard = .error .resetWhileRunning ∧
        now.tryReset hard = (.error .resetWhileRunning, now) ∧
          (Request.reset hard).perform now = now) ∧
      (∀ bytes address, 65536 < address.toNat + bytes.length →
        now.load bytes address = .error ⟨address, bytes.length⟩ ∧
        now.tryLoad bytes address = (.error ⟨address, bytes.length⟩, now) ∧
          (Request.load bytes address).perform now = now) ∧
      (∀ log, (now.withLog log).step.2 = now.step.2.withLog log) ∧
      ∀ limit stopOnBreak,
        let batches := (now.start stopOnBreak).batchEntries limit
        (∀ entry ∈ batches, entry.misuse? = none) ∧
          batches.filterMap Entry.stop? = (now.run limit stopOnBreak).1.toList ∧
          (now.run limit stopOnBreak).2 =
            performAll (.start stopOnBreak :: List.replicate batches.length .runBatch) now := by
  intro now past
  refine ⟨?_, ?_, ?_, ?_, ?_, ?_, ?_⟩
  · have hrunning : now.isRunning = past.foldl Entry.leavesRunning emulator.isRunning :=
      isRunning_performAll requests emulator
    rw [hrunning, hidle, foldl_leavesRunning]
    simp
  · obtain ⟨calls, hcalls, hlogged⟩ := exists_calls_performAll requests emulator
    refine ⟨calls, ?_, hcalls, hcalls.imp fun _ _ h => h.told⟩
    rw [hlogged, List.nil_append]
  · intro hstopped
    exact ⟨runBatch_of_idle now hstopped, fun log => runBatch_of_idle (now.withLog log) hstopped⟩
  · intro hrunning hard
    have hrefused : now.tryReset hard = (.error .resetWhileRunning, now) := if_pos hrunning
    refine ⟨?_, hrefused, congrArg Prod.snd hrefused⟩
    rw [Emulator.reset, hrefused]
    rfl
  · intro bytes address hlarge
    have hrefused := tryLoad_of_large now hlarge
    refine ⟨?_, hrefused, congrArg Prod.snd hrefused⟩
    rw [Emulator.load, hrefused]
    rfl
  · exact now.withLog_step
  · intro limit stopOnBreak
    exact runBatches_spec limit (now.isRunning_start stopOnBreak)

def blank : Emulator Unit := { session := { state := () } }

/-- Zeros are software interrupts, so the first batch of a run ends it. The stop hook knows why, the
batch hook is not called, and no other batch can follow. -/
theorem life_cycle_blank :
    let ended := performAll [.start true, .runBatch] blank
    blank.isRunning = false ∧ ended.isRunning = false ∧ ended.runBatch.1 = .error .notRunning ∧
      ∃ calls, performAll [.start true, .runBatch] (blank.withLog []) = ended.withLog calls ∧
        calls.filterMap Call.stop? = [.brk] ∧ calls.filterMap Call.batch? = [] := by
  have hbreak : ((blank.start true).cpu.step.1.isBreak &&
      (blank.start true).session.stopOnBreak) = true := by
    decide +kernel
  have hbatch : (blank.start true).runBatch.1 = .ok (.stopped .brk) := by
    rw [runBatch_of_batchSteps rfl (.last (.broken rfl hbreak))]
    rfl
  have hstop : (blank.start true).batchEntry.stop? = some .brk := by
    rw [batchEntry, hbatch]
    rfl
  have hcompletes : (blank.start true).batchEntry.completes = false := by
    rw [batchEntry, hbatch]
    rfl
  obtain ⟨hrunning, ⟨calls, hlogged, -, htold⟩, hrefused, -, -, -, -⟩ :=
    life_cycle blank rfl [.start true, .runBatch]
  have hpast : history [.start true, .runBatch] blank =
      [.started, (blank.start true).batchEntry] := rfl
  have hended : (performAll [.start true, .runBatch] blank).isRunning = false := by
    rw [← Bool.not_eq_true, hrunning, hpast, underway_cons, underway_cons]
    rintro (⟨-, hrest⟩ | ⟨heq, -⟩ | hnil)
    · have hnone := hrest _ List.mem_cons_self
      rw [hstop] at hnone
      exact absurd hnone (by simp)
    · simp [batchEntry] at heq
    · exact not_underway_nil hnil
  refine ⟨rfl, hended, by rw [(hrefused hended).1], _, hlogged, ?_⟩
  rw [hpast] at htold
  rcases htold with _ | ⟨hstarted, _ | ⟨htaken, _ | _⟩⟩
  rw [hcompletes, hstop] at htaken
  constructor
  · rw [List.flatten_cons, List.flatten_singleton, List.filterMap_append, hstarted.2, htaken.2]
    rfl
  · rw [List.flatten_cons, List.flatten_singleton, List.filterMap_append, hstarted.1, htaken.1]
    rfl

end Nmos6502.Emulator
