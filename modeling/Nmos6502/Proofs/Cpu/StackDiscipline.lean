import Nmos6502.Proofs.Cpu.StackCells

/-!
# Stack discipline

A run whose moves form a nested word ends with the stack pointer that it started with, and each of
its closing moves brings back what the matching opening move saved, as long as at most 256 bytes are
on the stack at once. Main statement: `nested_run_recovers`.
-/

set_option autoImplicit false

namespace Nmos6502.Cpu

/-- Whether a run leaves the pointer and, apart from the places that it has room to push to, the
cells of the stack as they were. -/
def Keeps (room : Nat) (before after : Cpu Memory) : Prop :=
  after.registers.sp = before.registers.sp ∧
    ∀ k, 1 ≤ k → k + room ≤ 256 →
      after.cell (before.registers.sp + UInt8.ofNat k) =
        before.cell (before.registers.sp + UInt8.ofNat k)

variable {room : Nat} {cpu middle after : Cpu Memory} {saved : Saved}

theorem Keeps.refl (cpu : Cpu Memory) : Keeps room cpu cpu := ⟨rfl, fun _ _ _ => rfl⟩

theorem Keeps.trans (hfirst : Keeps room cpu middle) (hsecond : Keeps room middle after) :
    Keeps room cpu after := by
  refine ⟨hsecond.1.trans hfirst.1, fun k hpos hfits => ?_⟩
  have hkept := hsecond.2 k hpos hfits
  rw [hfirst.1] at hkept
  exact hkept.trans (hfirst.2 k hpos hfits)

theorem keeps_step_quiet (h : cpu.move = .quiet) : Keeps room cpu cpu.step.2 :=
  ⟨(step_quiet h).1, fun _ _ _ => (step_quiet h).2 _⟩

theorem sp_step_opens (h : cpu.move = .opens saved) :
    cpu.step.2.registers.sp = cpu.registers.sp - UInt8.ofNat saved.width := by
  rw [(step_opens h).1, sp_pushAll, Saved.length_bytes]

theorem cell_step_opens (h : cpu.move = .opens saved) (place : UInt8) :
    cpu.step.2.cell place = (cpu.pushAll (saved.bytes cpu.registers)).cell place :=
  congrArg (Memory.read · (stackAddress place)) (step_opens h).2

theorem cell_step_closes (h : cpu.move = .closes saved) (place : UInt8) :
    cpu.step.2.cell place = cpu.cell place :=
  congrArg (Memory.read · (stackAddress place)) (step_closes h).2

theorem sub_add_add (sp : UInt8) (n k : Nat) :
    sp - UInt8.ofNat n + UInt8.ofNat (k + n) = sp + UInt8.ofNat k := by
  apply UInt8.toNat_inj.mp
  simp only [UInt8.toNat_add, UInt8.toNat_sub, UInt8.toNat_ofNat']
  omega

/-- What is saved in front of a run that keeps the stack and pulled behind it leaves the stack as it
was. -/
theorem keeps_nest (hopens : cpu.move = .opens saved) (hwidth : saved.width ≤ room)
    (hinner : Keeps (room - saved.width) cpu.step.2 middle)
    (hcloses : middle.move = .closes saved) : Keeps room cpu middle.step.2 := by
  have hsp := hinner.1.trans (sp_step_opens hopens)
  refine ⟨?_, fun k hpos hfits => ?_⟩
  · rw [(step_closes hcloses).1, hsp]
    simp
  · have hkept := hinner.2 (k + saved.width) (by omega) (by omega)
    rw [sp_step_opens hopens, sub_add_add] at hkept
    rw [cell_step_closes hcloses, hkept, cell_step_opens hopens]
    exact cell_pushAll_above cpu _ hpos (by rw [Saved.length_bytes]; omega)

theorem recovered_nest (hopens : cpu.move = .opens saved)
    (hinner : Keeps (256 - saved.width) cpu.step.2 middle)
    (hcloses : middle.move = .closes saved) :
    saved.Recovered cpu.registers middle.step.2.registers := by
  have hwidth : saved.width ≤ 256 := by cases saved <;> decide
  refine recovered_of_closes hcloses fun k hk => ?_
  have hlength := saved.length_bytes cpu.registers
  have hkept := hinner.2 (k + 1) (by omega) (by omega)
  rw [hinner.1, hkept, cell_step_opens hopens, sp_step_opens hopens, ← hlength]
  exact cell_pushAll cpu _ (by omega) hk

theorem keeps_of_nested {word : List Move} (h : Nested word) {cpu : Cpu Memory} {room : Nat}
    (htrace : cpu.trace word.length = word) (hroom : Within room word) :
    Keeps room cpu (cpu.after word.length) := by
  induction h generalizing cpu room with
  | nil => exact .refl cpu
  | quiet _ ih =>
    obtain ⟨-, hmove, hrest⟩ := trace_of_cons htrace
    refine (keeps_step_quiet hmove).trans (ih hrest fun start hstart => ?_)
    have hmore := hroom (.quiet :: start) (List.cons_prefix_cons.mpr ⟨rfl, hstart⟩)
    simpa [pending, Move.growth] using hmore
  | @nest inner word saved hinside _ ihinner ihrest =>
    obtain ⟨-, hopens, htail⟩ := trace_of_cons htrace
    obtain ⟨-, hinner, hclosing⟩ := trace_of_append htail
    obtain ⟨-, hcloses, hrest⟩ := trace_of_cons hclosing
    have hwidth : (saved.width : Int) ≤ room := by
      simpa [pending, Move.growth] using hroom [.opens saved] (by simp)
    -- what is saved takes its width out of the room for the inner run
    have hkeeps : Keeps (room - saved.width) cpu.step.2 (cpu.step.2.after inner.length) := by
      refine ihinner hinner fun start hstart => ?_
      have hmore := hroom (.opens saved :: start)
        (List.cons_prefix_cons.mpr ⟨rfl, hstart.trans (List.prefix_append _ _)⟩)
      rw [pending, Move.growth] at hmore
      omega
    have hback : Keeps room cpu (cpu.step.2.after inner.length).step.2 :=
      keeps_nest hopens (by omega) hkeeps hcloses
    rw [List.length_cons, List.length_append, List.length_cons, after, after_add, after]
    refine hback.trans (ihrest hrest fun start hstart => ?_)
    have hmore := hroom (.opens saved :: (inner ++ .closes saved :: start)) (by
      rw [List.cons_prefix_cons, List.prefix_append_right_inj, List.cons_prefix_cons]
      exact ⟨rfl, rfl, hstart⟩)
    rw [pending, pending_append, pending, hinside.pending_eq_zero, Move.growth,
      Move.growth] at hmore
    omega

/-- Whether the instructions `i` and `j` of a run save and recover the same bytes: they are an
opening and a closing move of one kind with a nested word in between. -/
def Matches (cpu : Cpu Memory) (saved : Saved) (i j : Nat) : Prop :=
  i < j ∧ (cpu.after i).move = .opens saved ∧ (cpu.after j).move = .closes saved ∧
    Nested ((cpu.after (i + 1)).trace (j - (i + 1)))

theorem exists_matches {n j : Nat} (hnested : Nested (cpu.trace n)) (hj : j < n)
    (hcloses : (cpu.after j).move = .closes saved) : ∃ i, cpu.Matches saved i j := by
  obtain ⟨rest, rfl⟩ := Nat.exists_eq_add_of_lt hj
  have hword : cpu.trace (j + rest + 1) =
      cpu.trace j ++ .closes saved :: (cpu.after (j + 1)).trace rest := by
    rw [Nat.add_right_comm, trace_add, trace_succ, hcloses, List.append_assoc,
      List.singleton_append]
  obtain ⟨start, inner, hsplit, hinner⟩ := hnested.exists_opener hword
  obtain ⟨hlength, -, hrest⟩ := trace_of_append hsplit
  obtain ⟨-, hopens, hinside⟩ := trace_of_cons hrest
  rw [List.length_cons] at hlength
  refine ⟨start.length, by omega, hopens, hcloses, ?_⟩
  rw [after_succ, hlength, Nat.add_sub_add_left, Nat.add_sub_cancel, hinside]
  exact hinner

theorem recovered_of_matches {n i j : Nat} (hnested : Nested (cpu.trace n))
    (hdepth : ∀ m ≤ n, pending (cpu.trace m) ≤ 256) (hj : j < n) (h : cpu.Matches saved i j) :
    saved.Recovered (cpu.after i).registers (cpu.after (j + 1)).registers := by
  obtain ⟨hij, hopens, hcloses, hinner⟩ := h
  obtain ⟨gap, rfl⟩ := Nat.exists_eq_add_of_lt hij
  have hgap : i + gap + 1 - (i + 1) = gap := by omega
  rw [hgap] at hinner
  -- whatever the run has on the stack at `i` only takes room away
  have hbefore : 0 ≤ pending (cpu.trace i) := by
    rw [← cpu.take_trace (by omega : i ≤ n)]
    exact hnested.pending_take_nonneg i
  have hwithin : Within (256 - saved.width) ((cpu.after (i + 1)).trace gap) := by
    intro start hstart
    obtain ⟨htrace, hshort⟩ := eq_trace_of_prefix hstart
    have hmost := hdepth (i + 1 + start.length) (by omega)
    rw [trace_add, trace_succ, ← htrace, hopens, pending_append, pending_append, pending,
      Move.growth] at hmost
    have hnone : pending [] = 0 := rfl
    have hwidth : saved.width ≤ 256 := by cases saved <;> decide
    omega
  have hkeeps := keeps_of_nested hinner (by rw [length_trace]) hwithin
  rw [length_trace, after_succ] at hkeeps
  rw [Nat.add_right_comm, after_add, after_succ] at hcloses
  rw [after_succ, Nat.add_right_comm, after_add, after_succ]
  exact recovered_nest hopens hkeeps hcloses

/-- A nested run that never has more than 256 bytes on the stack ends with the stack pointer that it
started with, and what it saves is recovered. -/
theorem nested_run_recovers (cpu : Cpu Memory) (n : Nat) (hnested : Nested (cpu.trace n))
    (hdepth : ∀ m ≤ n, pending (cpu.trace m) ≤ 256) :
    (cpu.after n).registers.sp = cpu.registers.sp ∧
      (∀ j < n, ∀ saved, (cpu.after j).move = .closes saved → ∃ i, cpu.Matches saved i j) ∧
        ∀ saved i j, j < n → cpu.Matches saved i j →
          saved.Recovered (cpu.after i).registers (cpu.after (j + 1)).registers := by
  have hwithin : Within 256 (cpu.trace n) := by
    intro start hstart
    obtain ⟨htrace, hshort⟩ := eq_trace_of_prefix hstart
    rw [htrace]
    exact hdepth _ hshort
  have hkeeps := keeps_of_nested hnested (by rw [length_trace]) hwithin
  rw [length_trace] at hkeeps
  exact ⟨hkeeps.1, fun j hj saved hcloses => exists_matches hnested hj hcloses,
    fun saved i j hj h => recovered_of_matches hnested hdepth hj h⟩

/-- A processor at a call of a subroutine that keeps the accumulator and the flags on the stack; the
stack pointer wraps on the way. -/
def savingCall : Cpu Memory where
  registers := { a := 7, sp := 1, pc := 0x20 }
  memory :=
    [(0x20, 0x20), (0x21, 0x26), (0x26, 0x48), (0x27, 0x08), (0x28, 0x28), (0x29, 0x68),
      (0x2A, 0x60)].foldl (fun memory cell => memory.write cell.1 cell.2) Memory.zero

theorem nested_run_recovers_wrapped :
    Nested (savingCall.trace 6) ∧ (∀ m ≤ 6, pending (savingCall.trace m) ≤ 256) ∧
    (savingCall.after 6).registers.sp = savingCall.registers.sp ∧
      (∀ j < 6, ∀ saved, (savingCall.after j).move = .closes saved →
        ∃ i, savingCall.Matches saved i j) ∧
        ∀ saved i j, j < 6 → savingCall.Matches saved i j →
          saved.Recovered (savingCall.after i).registers
            (savingCall.after (j + 1)).registers := by
  have htrace : savingCall.trace 6 =
      [.opens .call, .opens .accumulator, .opens .status, .closes .status, .closes .accumulator,
        .closes .call] := by
    decide +kernel
  have hnested : Nested (savingCall.trace 6) := by
    rw [htrace]
    exact .nest .call (.nest .accumulator (.nest .status .nil .nil) .nil) .nil
  have hdepth : ∀ m ≤ 6, pending (savingCall.trace m) ≤ 256 := by
    intro m hm
    rw [← take_trace _ hm, htrace]
    revert m
    decide
  exact ⟨hnested, hdepth, nested_run_recovers savingCall 6 hnested hdepth⟩

end Nmos6502.Cpu
