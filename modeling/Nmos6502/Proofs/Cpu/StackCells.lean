import Nmos6502.Memory
import Nmos6502.Proofs.Cpu.Trace
import Nmos6502.Proofs.OpcodeLookup

set_option autoImplicit false

namespace Nmos6502

theorem Status.pulled_pushed (status : Status) :
    pulled status.pushed = { status with breakFlag := true, unused := true } := by
  rw [pulled, pushed, ofByte_toByte]

namespace Saved

def bytes (r : Registers) : Saved → List UInt8
  | accumulator => [r.a]
  | status => [r.status.pushed]
  | call => [lowByte (r.pc + 2), highByte (r.pc + 2)]
  | interrupt => [r.status.pushed, lowByte (r.pc + 2), highByte (r.pc + 2)]

theorem length_bytes (saved : Saved) (r : Registers) : (saved.bytes r).length = saved.width := by
  cases saved <;> rfl

/-- Whether what was saved is back: pulled flags have the break flag and the unused flag set, and a
call is continued behind its three bytes, an interrupt behind the byte that follows its opcode. -/
def Recovered (before after : Registers) : Saved → Prop
  | accumulator => after.a = before.a
  | status => after.status = { before.status with breakFlag := true, unused := true }
  | call => after.pc = before.pc + 3
  | interrupt =>
    after.pc = before.pc + 2 ∧
      after.status = { before.status with breakFlag := true, unused := true }

end Saved

namespace Cpu

theorem stackAddress_inj {p q : UInt8} : stackAddress p = stackAddress q ↔ p = q := by
  constructor
  · intro h
    simpa [stackAddress] using congrArg lowByte h
  · rintro rfl
    rfl

theorem highByte_stackAddress (place : UInt8) : highByte (stackAddress place) = 1 := by
  simp [stackAddress]

def cell (cpu : Cpu Memory) (place : UInt8) : UInt8 := cpu.memory.read (stackAddress place)

def pushAll (cpu : Cpu Memory) : List UInt8 → Cpu Memory
  | [] => cpu
  | b :: rest => (cpu.pushAll rest).push b

variable (cpu : Cpu Memory)

theorem cell_push (value place : UInt8) :
    (cpu.push value).cell place = if place = cpu.registers.sp then value else cpu.cell place := by
  by_cases h : place = cpu.registers.sp
  · rw [if_pos h, h]
    exact Memory.read_write_self _ _ _
  · rw [if_neg h]
    exact Memory.read_write_other _ _ (mt stackAddress_inj.mp h)

section
variable (sp : UInt8) (n k : Nat)

theorem sub_succ : sp - UInt8.ofNat (n + 1) = sp - UInt8.ofNat n - 1 := by
  apply UInt8.toNat_inj.mp
  simp only [UInt8.toNat_sub, UInt8.toNat_ofNat', UInt8.reduceToNat]
  omega

theorem sub_succ_add_succ :
    sp - UInt8.ofNat (n + 1) + UInt8.ofNat (k + 1) = sp - UInt8.ofNat n + UInt8.ofNat k := by
  apply UInt8.toNat_inj.mp
  simp only [UInt8.toNat_add, UInt8.toNat_sub, UInt8.toNat_ofNat']
  omega

variable {n k}

/-- Places above the pointer are not reached from below before the stack is full. -/
theorem add_ne_sub (hpos : 1 ≤ k) (hfits : k + n < 256) :
    sp + UInt8.ofNat k ≠ sp - UInt8.ofNat n := by
  intro h
  have hsp := sp.toNat_lt
  have heq := congrArg UInt8.toNat h
  simp only [UInt8.toNat_add, UInt8.toNat_sub, UInt8.toNat_ofNat'] at heq
  omega

end

theorem sp_pushAll (bytes : List UInt8) :
    (cpu.pushAll bytes).registers.sp = cpu.registers.sp - UInt8.ofNat bytes.length := by
  induction bytes with
  | nil => simp [pushAll]
  | cons b rest ih =>
    rw [List.length_cons, sub_succ, ← ih]
    rfl

theorem cell_pushAll_above (bytes : List UInt8) {k : Nat} (hpos : 1 ≤ k)
    (hfits : k + bytes.length ≤ 256) :
    (cpu.pushAll bytes).cell (cpu.registers.sp + UInt8.ofNat k) =
      cpu.cell (cpu.registers.sp + UInt8.ofNat k) := by
  induction bytes with
  | nil => rfl
  | cons b rest ih =>
    rw [List.length_cons] at hfits
    rw [pushAll, cell_push, sp_pushAll, if_neg (add_ne_sub _ hpos (by omega)), ih (by omega)]

theorem cell_pushAll (bytes : List UInt8) (hfits : bytes.length ≤ 256) {k : Nat}
    (hk : k < bytes.length) :
    (cpu.pushAll bytes).cell
      (cpu.registers.sp - UInt8.ofNat bytes.length + UInt8.ofNat (k + 1)) = bytes[k] := by
  induction bytes generalizing k with
  | nil => simp at hk
  | cons b rest ih =>
    rw [List.length_cons] at hfits hk
    rw [List.length_cons, sub_succ_add_succ, pushAll, cell_push, sp_pushAll]
    cases k with
    | zero => simp
    | succ k =>
      have hplace : cpu.registers.sp - UInt8.ofNat rest.length + UInt8.ofNat (k + 1) ≠
          cpu.registers.sp - UInt8.ofNat rest.length := by
        simpa using add_ne_sub (cpu.registers.sp - UInt8.ofNat rest.length) (n := 0)
          (Nat.succ_pos k) (by omega)
      rw [if_neg hplace, ih (by omega) (by omega), List.getElem_cons_succ]

variable {cpu}

theorem step_opens {saved : Saved} (h : cpu.move = .opens saved) :
    cpu.step.2.registers.sp = (cpu.pushAll (saved.bytes cpu.registers)).registers.sp ∧
      cpu.step.2.memory = (cpu.pushAll (saved.bytes cpu.registers)).memory := by
  have hoperation := Operation.eq_opener (stackMove_of_move h (by simp)).2
  rw [step_eq_perform, perform]
  cases saved with
  | accumulator | status | interrupt =>
    rw [hoperation]
    exact ⟨rfl, rfl⟩
  | call =>
    have hfetches : cpu.nextOpcode.operation.effect.fetches cpu.nextOpcode.mode = 2 := by
      rw [hoperation]
      rfl
    have hlast : cpu.registers.pc + UInt16.ofNat (2 + 1) - 1 = cpu.registers.pc + 2 := by
      apply UInt16.toNat_inj.mp
      simp only [UInt16.toNat_add, UInt16.toNat_sub, UInt16.reduceOfNat, UInt16.reduceToNat,
        Nat.reduceAdd]
      omega
    simp only [behind_eq hfetches, hoperation, Saved.opener, Operation.effect, hlast]
    exact ⟨rfl, rfl⟩

theorem step_closes {saved : Saved} (h : cpu.move = .closes saved) :
    cpu.step.2.registers.sp = cpu.registers.sp + UInt8.ofNat saved.width ∧
      cpu.step.2.memory = cpu.memory := by
  have hoperation := Operation.eq_closer (stackMove_of_move h (by simp)).2
  rw [step_eq_perform, perform, hoperation]
  cases saved <;> exact ⟨rfl, rfl⟩

theorem peek_ofNat (k : Nat) :
    cpu.peek (UInt8.ofNat k) = cpu.cell (cpu.registers.sp + UInt8.ofNat (k + 1)) := by
  rw [UInt8.ofNat_add, ← UInt8.add_assoc]
  rfl

theorem recovered_of_closes {saved : Saved} {before : Registers} (h : cpu.move = .closes saved)
    (hcells : ∀ (k : Nat) (hk : k < (saved.bytes before).length),
      cpu.cell (cpu.registers.sp + UInt8.ofNat (k + 1)) = (saved.bytes before)[k]) :
    saved.Recovered before cpu.step.2.registers := by
  have hoperation := Operation.eq_closer (stackMove_of_move h (by simp)).2
  have pulled : ∀ (k : Nat) (hk : k < (saved.bytes before).length),
      cpu.peek (UInt8.ofNat k) = (saved.bytes before)[k] :=
    fun k hk => (peek_ofNat k).trans (hcells k hk)
  rw [step_eq_perform, perform, hoperation]
  cases saved with
  | accumulator =>
    have ha : cpu.peek 0 = before.a := pulled 0 (by simp [Saved.bytes])
    exact ha
  | status =>
    have hstatus : cpu.peek 0 = before.status.pushed := pulled 0 (by simp [Saved.bytes])
    change Status.pulled (cpu.peek 0) = _
    rw [hstatus, Status.pulled_pushed]
  | call =>
    have hlow : cpu.peek 0 = lowByte (before.pc + 2) := pulled 0 (by simp [Saved.bytes])
    have hhigh : cpu.peek 1 = highByte (before.pc + 2) := pulled 1 (by simp [Saved.bytes])
    change word (cpu.peek 0) (cpu.peek 1) + 1 = before.pc + 3
    rw [hlow, hhigh, word_lowByte_highByte, UInt16.add_assoc]
    rfl
  | interrupt =>
    have hstatus : cpu.peek 0 = before.status.pushed := pulled 0 (by simp [Saved.bytes])
    have hlow : cpu.peek 1 = lowByte (before.pc + 2) := pulled 1 (by simp [Saved.bytes])
    have hhigh : cpu.peek 2 = highByte (before.pc + 2) := pulled 2 (by simp [Saved.bytes])
    change word (cpu.peek 1) (cpu.peek 2) = before.pc + 2 ∧ Status.pulled (cpu.peek 0) = _
    rw [hstatus, hlow, hhigh, word_lowByte_highByte, Status.pulled_pushed]
    exact ⟨rfl, rfl⟩

theorem ne_resultAddress {address : UInt16} (hover : cpu.overwritesStack = false)
    (hresult : cpu.resultAddress? = some address) (place : UInt8) :
    stackAddress place ≠ address := by
  rintro rfl
  simp [overwritesStack, hresult, highByte_stackAddress] at hover

theorem step_quiet (h : cpu.move = .quiet) :
    cpu.step.2.registers.sp = cpu.registers.sp ∧
      ∀ place, cpu.step.2.cell place = cpu.cell place := by
  obtain ⟨hover, hquiet⟩ := stackMove_of_move h (by simp)
  have hkeeps := Operation.keepsPointer_effect hquiet
  rw [step_eq_perform, perform]
  cases heffect : cpu.nextOpcode.operation.effect with
  | load update =>
    rw [heffect] at hkeeps
    exact ⟨hkeeps _ _, fun _ => rfl⟩
  | store source =>
    refine ⟨rfl, fun place => Memory.read_write_other _ _ (ne_resultAddress hover ?_ place)⟩
    simp only [resultAddress?, heffect]
    rfl
  | modify change =>
    by_cases hmode : cpu.nextOpcode.mode = .accumulator
    · dsimp only
      rw [if_pos hmode]
      exact ⟨rfl, fun _ => rfl⟩
    · dsimp only
      rw [if_neg hmode]
      refine ⟨rfl, fun place => Memory.read_write_other _ _ (ne_resultAddress hover ?_ place)⟩
      simp only [resultAddress?, heffect, hmode, if_false]
      rfl
  | internal update =>
    rw [heffect] at hkeeps
    exact ⟨hkeeps _, fun _ => rfl⟩
  | branch taken => exact ⟨rfl, fun _ => rfl⟩
  | jump => exact ⟨rfl, fun _ => rfl⟩
  | push source | pull update | call | returnFromCall | interrupt | returnFromInterrupt =>
    rw [heffect] at hkeeps
    exact hkeeps.elim

end Cpu
end Nmos6502
