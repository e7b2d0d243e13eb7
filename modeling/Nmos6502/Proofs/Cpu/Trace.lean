import Nmos6502.Cpu.Step
import Nmos6502.Proofs.Cpu.NestedWord

set_option autoImplicit false

namespace Nmos6502

def Saved.opener : Saved → Operation
  | accumulator => .pha
  | status => .php
  | call => .jsr
  | interrupt => .brk

def Saved.closer : Saved → Operation
  | accumulator => .pla
  | status => .plp
  | call => .rts
  | interrupt => .rti

/-- Whether an effect moves data and control only, and not the stack pointer. -/
def Effect.KeepsPointer : Effect → Prop
  | load update => ∀ r b, (update r b).sp = r.sp
  | internal update => ∀ r, (update r).sp = r.sp
  | store _ | modify _ | branch _ | jump => True
  | push _ | pull _ | call | returnFromCall | interrupt | returnFromInterrupt => False

namespace Operation

def stackMove : Operation → Move
  | pha => .opens .accumulator
  | php => .opens .status
  | jsr => .opens .call
  | brk => .opens .interrupt
  | pla => .closes .accumulator
  | plp => .closes .status
  | rts => .closes .call
  | rti => .closes .interrupt
  | txs => .stray
  | _ => .quiet

variable {operation : Operation}

theorem eq_opener {saved : Saved} (h : operation.stackMove = .opens saved) :
    operation = saved.opener := by
  cases operation <;> cases h <;> rfl

theorem eq_closer {saved : Saved} (h : operation.stackMove = .closes saved) :
    operation = saved.closer := by
  cases operation <;> cases h <;> rfl

theorem keepsPointer_effect (h : operation.stackMove = .quiet) :
    operation.effect.KeepsPointer := by
  cases operation
  all_goals first
    | exact trivial
    | exact fun _ => rfl
    | exact fun _ _ => rfl
    | cases h

end Operation

namespace Cpu

variable {M : Type} [Bus M]

def nextOpcode (cpu : Cpu M) : Opcode := Opcode.ofByte (Bus.read cpu.memory cpu.registers.pc)

def resultAddress? (cpu : Cpu M) : Option UInt16 :=
  match cpu.nextOpcode.operation.effect with
  | .store _ => some (cpu.effectiveAddress cpu.nextOpcode.mode)
  | .modify _ =>
    if cpu.nextOpcode.mode = .accumulator then none
    else some (cpu.effectiveAddress cpu.nextOpcode.mode)
  | _ => none

def overwritesStack (cpu : Cpu M) : Bool :=
  cpu.resultAddress?.any fun address => highByte address == 1

def move (cpu : Cpu M) : Move :=
  if cpu.overwritesStack then .stray else cpu.nextOpcode.operation.stackMove

def after : Cpu M → Nat → Cpu M
  | cpu, 0 => cpu
  | cpu, n + 1 => cpu.step.2.after n

def trace : Cpu M → Nat → List Move
  | _, 0 => []
  | cpu, n + 1 => cpu.move :: cpu.step.2.trace n

variable (cpu : Cpu M)

theorem after_add (m n : Nat) : cpu.after (m + n) = (cpu.after m).after n := by
  induction m generalizing cpu with
  | zero => rw [Nat.zero_add, after]
  | succ m ih => rw [Nat.succ_add, after, after, ih]

theorem after_succ (n : Nat) : cpu.after (n + 1) = (cpu.after n).step.2 := by
  rw [after_add]
  rfl

theorem trace_add (m n : Nat) : cpu.trace (m + n) = cpu.trace m ++ (cpu.after m).trace n := by
  induction m generalizing cpu with
  | zero => rw [Nat.zero_add, after, trace, List.nil_append]
  | succ m ih => rw [Nat.succ_add, trace, trace, after, ih, List.cons_append]

theorem trace_succ (n : Nat) : cpu.trace (n + 1) = cpu.trace n ++ [(cpu.after n).move] :=
  cpu.trace_add n 1

@[simp]
theorem length_trace (n : Nat) : (cpu.trace n).length = n := by
  induction n generalizing cpu with
  | zero => rfl
  | succ n ih => rw [trace, List.length_cons, ih]

theorem take_trace {m n : Nat} (h : m ≤ n) : (cpu.trace n).take m = cpu.trace m := by
  obtain ⟨rest, rfl⟩ := Nat.exists_eq_add_of_le h
  rw [trace_add, List.take_left' (cpu.length_trace m)]

theorem perform_cycles (opcode : Opcode) : (cpu.perform opcode).cycles = cpu.cycles := by
  unfold perform
  cases opcode.operation.effect with
  | modify change =>
    by_cases hmode : opcode.mode = .accumulator
    · simp only [hmode, if_true]
    · simp only [hmode, if_false]
  | _ => rfl

variable {cpu : Cpu M}

theorem eq_trace_of_prefix {n : Nat} {start : List Move} (h : start <+: cpu.trace n) :
    start = cpu.trace start.length ∧ start.length ≤ n := by
  have hle : start.length ≤ n := cpu.length_trace n ▸ h.length_le
  exact ⟨(List.prefix_iff_eq_take.mp h).trans (cpu.take_trace hle), hle⟩

theorem trace_of_append {n : Nat} {first second : List Move} (h : cpu.trace n = first ++ second) :
    n = first.length + second.length ∧ cpu.trace first.length = first ∧
      (cpu.after first.length).trace second.length = second := by
  have hlength : n = first.length + second.length := by
    rw [← List.length_append, ← h, length_trace]
  rw [hlength, trace_add] at h
  exact ⟨hlength, List.append_inj h (length_trace _ _)⟩

theorem trace_of_cons {n : Nat} {first : Move} {rest : List Move}
    (h : cpu.trace n = first :: rest) :
    n = rest.length + 1 ∧ cpu.move = first ∧ cpu.step.2.trace rest.length = rest := by
  cases n with
  | zero => simp [trace] at h
  | succ n =>
    obtain ⟨rfl, rfl⟩ := List.cons.inj h
    simp

theorem step_eq_perform :
    cpu.step.2 = { cpu with cycles := cpu.cycles + UInt64.ofNat cpu.upcoming.cycles }.perform
      cpu.nextOpcode :=
  rfl

theorem stackMove_of_move {move : Move} (h : cpu.move = move) (hstray : move ≠ .stray) :
    cpu.overwritesStack = false ∧ cpu.nextOpcode.operation.stackMove = move := by
  unfold Cpu.move at h
  cases hover : cpu.overwritesStack with
  | true => exact absurd (by simpa [hover] using h.symm) hstray
  | false => exact ⟨rfl, by simpa [hover] using h⟩

end Cpu
end Nmos6502
