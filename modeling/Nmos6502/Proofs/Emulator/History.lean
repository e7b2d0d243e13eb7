import Nmos6502.Proofs.Emulator.HookCalls

/-!
# The history of an emulator

What the owner of an emulator asks for, one request after the other, and what happened to its runs
thereby: that one was started, and which batches were answered how. Main statement:
`isRunning_performAll`, by which the history tells whether the emulator runs.
-/

set_option autoImplicit false

namespace Nmos6502.Emulator

variable {σ : Type}

/-- What the owner of an emulator asks for. -/
inductive Request where
  | start (stopOnBreak : Bool)
  | runBatch
  /-- To run, and to look after `limit` batches whether the run is over. -/
  | run (limit : Nat) (stopOnBreak : Bool)
  | step
  | halt
  /-- To halt, also when there is no run, as a handle does. -/
  | requestHalt
  | reset (hard : Bool)
  | load (bytes : List UInt8) (address : UInt16)
  /-- To write to registers and memory. -/
  | edit (change : Cpu Memory → Cpu Memory)

def Request.perform (request : Request) (emulator : Emulator σ) : Emulator σ :=
  match request with
  | start stopOnBreak => emulator.start stopOnBreak
  | runBatch => emulator.runBatch.2
  | run limit stopOnBreak => (emulator.run limit stopOnBreak).2
  | step => emulator.step.2
  | halt => emulator.halt
  | requestHalt => emulator.requestHalt
  | reset hard => (emulator.tryReset hard).2
  | load bytes address => (emulator.tryLoad bytes address).2
  | edit change => { emulator with cpu := change emulator.cpu }

def performAll (requests : List Request) (emulator : Emulator σ) : Emulator σ :=
  requests.foldl (fun emulator request => request.perform emulator) emulator

inductive Entry (σ : Type) where
  | started
  | batch (before : Emulator σ) (answer : Except Misuse Outcome) (after : Emulator σ)

namespace Entry

def stop? : Entry σ → Option StopReason
  | batch _ (.ok outcome) _ => outcome.reason?
  | _ => none

def completes : Entry σ → Bool
  | batch _ (.ok outcome) _ => outcome.completes
  | _ => false

def misuse? : Entry σ → Option Misuse
  | batch _ (.error misuse) _ => some misuse
  | _ => none

/-- Whether there is a run after the entry, when there was one before it or not. -/
def leavesRunning (running : Bool) : Entry σ → Bool
  | started => true
  | entry => running && entry.stop?.isNone

end Entry

def batchEntry (emulator : Emulator σ) : Entry σ :=
  .batch emulator emulator.runBatch.1 emulator.runBatch.2

def batchEntries : Nat → Emulator σ → List (Entry σ)
  | 0, _ => []
  | limit + 1, emulator =>
    emulator.batchEntry :: match emulator.runBatch with
      | (.ok .ongoing, after) => batchEntries limit after
      | _ => []

def Request.entries (request : Request) (emulator : Emulator σ) : List (Entry σ) :=
  match request with
  | start _ => [.started]
  | runBatch => [emulator.batchEntry]
  | run limit stopOnBreak => .started :: (emulator.start stopOnBreak).batchEntries limit
  | _ => []

def history : List Request → Emulator σ → List (Entry σ)
  | [], _ => []
  | request :: requests, emulator =>
    request.entries emulator ++ history requests (request.perform emulator)

/-- A run was started that was not stopped afterwards. -/
def Underway (entries : List (Entry σ)) : Prop :=
  ∃ earlier later, entries = earlier ++ .started :: later ∧ ∀ entry ∈ later, entry.stop? = none

@[simp]
theorem not_underway_nil : ¬ Underway ([] : List (Entry σ)) := by
  rintro ⟨earlier, later, heq, -⟩
  simp at heq

theorem underway_cons (entry : Entry σ) (entries : List (Entry σ)) :
    Underway (entry :: entries) ↔
      entry = .started ∧ (∀ later ∈ entries, later.stop? = none) ∨ Underway entries := by
  constructor
  · rintro ⟨earlier, later, heq, hlater⟩
    cases earlier with
    | nil =>
      obtain ⟨rfl, rfl⟩ := List.cons.inj heq
      exact .inl ⟨rfl, hlater⟩
    | cons first earlier =>
      obtain ⟨rfl, rfl⟩ := List.cons.inj heq
      exact .inr ⟨earlier, later, rfl, hlater⟩
  · rintro (⟨rfl, hlater⟩ | ⟨earlier, later, rfl, hlater⟩)
    · exact ⟨[], entries, rfl, hlater⟩
    · exact ⟨entry :: earlier, later, rfl, hlater⟩

/-- The entries tell whether there is a run after them, if it is known whether there was one. -/
theorem foldl_leavesRunning (entries : List (Entry σ)) (running : Bool) :
    entries.foldl Entry.leavesRunning running = true ↔
      Underway entries ∨ running = true ∧ ∀ entry ∈ entries, entry.stop? = none := by
  induction entries generalizing running with
  | nil => simp
  | cons entry entries ih =>
    rw [List.foldl_cons, ih, underway_cons]
    cases entry with
    | started =>
      constructor
      · rintro (hunderway | ⟨-, hrest⟩)
        · exact .inl (.inr hunderway)
        · exact .inl (.inl ⟨rfl, hrest⟩)
      · rintro ((⟨-, hrest⟩ | hunderway) | ⟨-, hall⟩)
        · exact .inr ⟨rfl, hrest⟩
        · exact .inl hunderway
        · exact .inr ⟨rfl, (List.forall_mem_cons.mp hall).2⟩
    | batch before answer after =>
      constructor
      · rintro (hunderway | ⟨hleaves, hrest⟩)
        · exact .inl (.inr hunderway)
        · obtain ⟨hrunning, hstop⟩ := Bool.and_eq_true_iff.mp hleaves
          refine .inr ⟨hrunning, List.forall_mem_cons.mpr ⟨?_, hrest⟩⟩
          exact Option.isNone_iff_eq_none.mp hstop
      · rintro ((⟨heq, -⟩ | hunderway) | ⟨hrunning, hall⟩)
        · exact nomatch heq
        · exact .inl hunderway
        · obtain ⟨hstop, hrest⟩ := List.forall_mem_cons.mp hall
          exact .inr ⟨Bool.and_eq_true_iff.mpr ⟨hrunning, Option.isNone_iff_eq_none.mpr hstop⟩, hrest⟩

theorem isRunning_runBatch (emulator : Emulator σ) :
    emulator.runBatch.2.isRunning = emulator.batchEntry.leavesRunning emulator.isRunning := by
  cases hrunning : emulator.isRunning with
  | false =>
    rw [runBatch_of_idle emulator hrunning]
    exact hrunning
  | true =>
    obtain ⟨n, outcome, h⟩ := exists_batched hrunning
    rw [h.running_eq, batchEntry, h.answer]
    exact (Bool.true_and _).symm

theorem isRunning_runBatches (limit : Nat) (emulator : Emulator σ) :
    (emulator.runBatches limit).2.isRunning =
      (emulator.batchEntries limit).foldl Entry.leavesRunning emulator.isRunning := by
  induction limit generalizing emulator with
  | zero => rfl
  | succ limit ih =>
    have hstep := isRunning_runBatch emulator
    rw [runBatches, batchEntries, List.foldl_cons, ← hstep]
    rcases hbatch : emulator.runBatch with ⟨_ | ⟨_ | reason⟩, after⟩
    · exact Session.record_running _ _
    · exact ih after
    · rfl

theorem Request.isRunning_perform (request : Request) (emulator : Emulator σ) :
    (request.perform emulator).isRunning =
      (request.entries emulator).foldl Entry.leavesRunning emulator.isRunning := by
  cases request with
  | start stopOnBreak => exact emulator.isRunning_start stopOnBreak
  | runBatch => exact isRunning_runBatch emulator
  | run limit stopOnBreak =>
    have hbatches := isRunning_runBatches limit (emulator.start stopOnBreak)
    rw [isRunning_start] at hbatches
    exact hbatches
  | step => exact Session.record_running _ _
  | halt =>
    simp only [perform, Emulator.halt]
    split <;> rfl
  | requestHalt => rfl
  | reset hard =>
    simp only [perform, Emulator.tryReset]
    split <;> rfl
  | load bytes address => rfl
  | edit change => rfl

theorem isRunning_performAll (requests : List Request) (emulator : Emulator σ) :
    (performAll requests emulator).isRunning =
      (history requests emulator).foldl Entry.leavesRunning emulator.isRunning := by
  induction requests generalizing emulator with
  | nil => rfl
  | cons request requests ih =>
    rw [history, List.foldl_append, ← request.isRunning_perform]
    exact ih (request.perform emulator)

end Nmos6502.Emulator
