import Nmos6502.Memory
import Nmos6502.Proofs.Cpu.ProgramCounter

/-!
# Fetching byte after byte

A step can be taken in small: the processor takes the opcode byte, then as many operand bytes as the
effect of the operation asks for, and its program counter moves on behind each of them. Main
statement: `fetchExecute_eq`, by which this is what a step does.
-/

set_option autoImplicit false

namespace Nmos6502

/-- Whether an effect does the same wherever the program counter is. -/
def Effect.IgnoresPc : Effect → Prop
  | load update | pull update =>
    ∀ (r : Registers) b pc, update { r with pc } b = { update r b with pc }
  | internal update => ∀ (r : Registers) pc, update { r with pc } = { update r with pc }
  | store source | push source => ∀ (r : Registers) pc, source { r with pc } = source r
  | _ => True

theorem Operation.effect_ignoresPc (operation : Operation) : operation.effect.IgnoresPc := by
  cases operation
  all_goals first
    | exact trivial
    | exact fun _ _ _ => rfl
    | exact fun _ _ => rfl

theorem Operation.eq_jsr_of_effect {operation : Operation} (h : operation.effect = .call) :
    operation = .jsr := by
  cases operation
  all_goals first
    | rfl
    | cases h

theorem Memory.readBytes_succ (memory : Memory) (address : UInt16) (n : Nat) :
    memory.readBytes address (n + 1) = memory.read address :: memory.readBytes (address + 1) n := by
  simp only [readBytes, List.range_succ_eq_map, List.map_cons, List.map_map, UInt16.reduceOfNat,
    UInt16.add_zero]
  congr 1
  refine List.map_congr_left fun i _ => ?_
  rw [Function.comp, Nat.succ_eq_add_one, Nat.add_comm, UInt16.ofNat_add, ← UInt16.add_assoc]
  rfl

namespace Cpu

section
variable {M : Type} [Bus M]

def advance (cpu : Cpu M) (n : Nat) : Cpu M :=
  { cpu with registers := { cpu.registers with pc := cpu.registers.pc + UInt16.ofNat n } }

def fetch : Nat → Cpu M → List UInt8 × Cpu M
  | 0, cpu => ([], cpu)
  | n + 1, cpu =>
    let (rest, after) := (cpu.advance 1).fetch n
    (Bus.read cpu.memory cpu.registers.pc :: rest, after)

/-- The address that a mode names, when the operand bytes have been taken. -/
def fetchedAddress (cpu : Cpu M) (operands : List UInt8) (mode : AddressingMode) : UInt16 :=
  let first := operands.headD 0
  let full := word first (operands.getD 1 0)
  match mode with
  | .implicit | .accumulator => cpu.registers.pc
  | .immediate => cpu.registers.pc - 1
  | .zeroPage => first.toUInt16
  | .zeroPageX => (first + cpu.registers.x).toUInt16
  | .zeroPageY => (first + cpu.registers.y).toUInt16
  | .relative => cpu.registers.pc + signExtend first
  | .absolute => full
  | .absoluteX => full + cpu.registers.x.toUInt16
  | .absoluteY => full + cpu.registers.y.toUInt16
  | .indirect => cpu.wordInPage full
  | .indirectX => cpu.zeroPageWord (first + cpu.registers.x)
  | .indirectY => cpu.zeroPageWord first + cpu.registers.y.toUInt16

def execute (cpu : Cpu M) (opcode : Opcode) (operands : List UInt8) : Cpu M :=
  let r := cpu.registers
  let target := cpu.fetchedAddress operands opcode.mode
  match opcode.operation.effect with
  | .load update => { cpu with registers := update r (Bus.read cpu.memory target) }
  | .store source => { cpu with memory := Bus.write cpu.memory target (source r) }
  | .modify change =>
    if opcode.mode = .accumulator then
      let (result, status) := change r.status r.a
      { cpu with registers := { r with a := result, status } }
    else
      let (result, status) := change r.status (Bus.read cpu.memory target)
      { cpu with
        memory := Bus.write cpu.memory target result
        registers := { r with status } }
  | .internal update => { cpu with registers := update r }
  | .branch taken =>
    if taken r.status then
      { cpu with registers := { r with pc := cpu.fetchedAddress operands .relative } }
    else cpu
  | .jump => { cpu with registers := { r with pc := target } }
  | .push source => cpu.push (source r)
  | .pull update => { cpu with registers := update { r with sp := r.sp + 1 } (cpu.peek 0) }
  | .call =>
    let pushed := cpu.pushWord (r.pc - 1)
    { pushed with
      registers := { pushed.registers with pc := cpu.fetchedAddress operands .absolute } }
  | .returnFromCall => { cpu with registers := { r with sp := r.sp + 2, pc := cpu.peekWord 0 + 1 } }
  | .interrupt =>
    let pushed := (cpu.pushWord (r.pc + 1)).push r.status.pushed
    let status := { r.status with breakFlag := true, interruptDisable := true }
    { pushed with
      registers :=
        { pushed.registers with status, pc := Bus.readWord pushed.memory interruptVector } }
  | .returnFromInterrupt =>
    { cpu with
      registers :=
        { r with sp := r.sp + 3, status := Status.pulled (cpu.peek 0), pc := cpu.peekWord 1 } }

/-- Takes an instruction byte after byte and executes it: the bytes that were taken, and the
processor afterwards. -/
def fetchExecute (cpu : Cpu M) : List UInt8 × Cpu M :=
  let (opcodeByte, behindOpcode) := cpu.fetch 1
  let opcode := Opcode.ofByte (opcodeByte.headD 0)
  let (operands, behind) := behindOpcode.fetch (opcode.operation.effect.fetches opcode.mode)
  let after := behind.execute opcode operands
  (opcodeByte ++ operands,
    { after with cycles := after.cycles + UInt64.ofNat cpu.upcoming.cycles })

end

variable (cpu : Cpu Memory)

theorem fetch_eq (n : Nat) :
    cpu.fetch n = (cpu.memory.readBytes cpu.registers.pc n, cpu.advance n) := by
  induction n generalizing cpu with
  | zero => simp [fetch, advance, Memory.readBytes]
  | succ n ih =>
    have hpc : cpu.registers.pc + 1 + UInt16.ofNat n = cpu.registers.pc + UInt16.ofNat (n + 1) := by
      rw [UInt16.add_assoc, Nat.add_comm, UInt16.ofNat_add]
      rfl
    rw [fetch, ih, Memory.readBytes_succ]
    simp only [advance, UInt16.reduceOfNat, hpc]
    rfl

theorem fetchedAddress_eq (mode : AddressingMode) :
    (cpu.advance (mode.fetches + 1)).fetchedAddress
        (cpu.memory.readBytes (cpu.registers.pc + 1) mode.fetches) mode =
      cpu.effectiveAddress mode := by
  have hzero (address : UInt16) : address + UInt8.toUInt16 0 = address := UInt16.add_zero _
  have hback : cpu.registers.pc + UInt16.ofNat 2 - 1 = cpu.registers.pc + 1 := by
    apply UInt16.toNat_inj.mp
    simp only [UInt16.toNat_add, UInt16.toNat_sub, UInt16.reduceOfNat, UInt16.reduceToNat]
    omega
  cases mode with
  | immediate =>
    simp only [effectiveAddress, baseAddress, indexOffset, hzero]
    exact hback
  | _ =>
    simp only [fetchedAddress, effectiveAddress, baseAddress, indexOffset, hzero,
      AddressingMode.fetches, Memory.readBytes_succ]
    rfl

theorem execute_eq :
    let count := cpu.nextOpcode.operation.effect.fetches cpu.nextOpcode.mode
    (cpu.advance (count + 1)).execute cpu.nextOpcode
        (cpu.memory.readBytes (cpu.registers.pc + 1) count) =
      cpu.perform cpu.nextOpcode := by
  intro count
  have hsame := cpu.nextOpcode.operation.effect_ignoresPc
  have hcount : cpu.nextOpcode.operation.effect.fetches cpu.nextOpcode.mode = count := rfl
  have haddress (h : cpu.nextOpcode.mode.fetches = count) :
      (cpu.advance (count + 1)).fetchedAddress
          (cpu.memory.readBytes (cpu.registers.pc + 1) count) cpu.nextOpcode.mode =
        cpu.effectiveAddress cpu.nextOpcode.mode := by
    rw [← h]
    exact cpu.fetchedAddress_eq _
  clear_value count
  unfold execute perform
  rw [behind_eq hcount]
  cases heffect : cpu.nextOpcode.operation.effect with
  | load update =>
    rw [heffect] at hsame hcount
    dsimp only
    rw [haddress hcount]
    exact congrArg (fun r => { cpu with registers := r }) (hsame _ _ _)
  | store source =>
    rw [heffect] at hsame hcount
    dsimp only
    rw [haddress hcount]
    simp only [advance, hsame _ _]
  | modify change =>
    rw [heffect] at hcount
    dsimp only
    by_cases hmode : cpu.nextOpcode.mode = .accumulator
    · rw [if_pos hmode, if_pos hmode]
      rfl
    · rw [if_neg hmode, if_neg hmode, haddress ((if_neg hmode).symm.trans hcount)]
      rfl
  | internal update =>
    rw [heffect] at hsame
    exact congrArg (fun r => { cpu with registers := r }) (hsame _ _)
  | branch taken =>
    rw [heffect] at hcount
    have hmode : cpu.nextOpcode.mode = .relative :=
      (Opcode.mode_eq_relative_iff _).mpr (by rw [← nextOpcode, heffect]; rfl)
    rw [hmode] at haddress ⊢
    dsimp only
    by_cases htaken : taken cpu.registers.status = true
    · rw [if_pos htaken, haddress hcount]
      exact if_pos htaken
    · rw [if_neg htaken]
      exact if_neg htaken
  | jump =>
    rw [heffect] at hcount
    dsimp only
    rw [haddress hcount]
    rfl
  | push source =>
    rw [heffect] at hsame
    simp only [advance, hsame _ _]
  | pull update =>
    rw [heffect] at hsame
    exact congrArg (fun r => { cpu with registers := r })
      (hsame { cpu.registers with sp := cpu.registers.sp + 1 } (cpu.peek 0)
        (cpu.registers.pc + UInt16.ofNat (count + 1)))
  | call =>
    rw [heffect] at hcount
    have hmode : cpu.nextOpcode.mode = .absolute :=
      Opcode.mode_of_jsr (Operation.eq_jsr_of_effect heffect)
    rw [hmode] at haddress ⊢
    dsimp only
    rw [haddress hcount]
    rfl
  | returnFromCall => rfl
  | interrupt =>
    rw [heffect] at hcount
    have hpc : cpu.registers.pc + UInt16.ofNat (count + 1) + 1 = cpu.registers.pc + 2 := by
      rw [← hcount, UInt16.add_assoc]
      rfl
    dsimp only [advance]
    rw [hpc]
    rfl
  | returnFromInterrupt => rfl

theorem perform_withCycles (opcode : Opcode) (cycles : UInt64) :
    { cpu with cycles }.perform opcode = { cpu.perform opcode with cycles } := by
  unfold perform
  cases opcode.operation.effect with
  | modify change =>
    by_cases hmode : opcode.mode = .accumulator
    · simp only [hmode, if_true]
      rfl
    · simp only [hmode, if_false]
      rfl
  | _ => rfl

theorem advance_advance (m n : Nat) : (cpu.advance m).advance n = cpu.advance (n + m) := by
  simp only [advance, UInt16.add_assoc, ← UInt16.ofNat_add, Nat.add_comm]

/-- A step takes its instruction byte after byte. -/
theorem fetchExecute_eq :
    cpu.fetchExecute =
      (cpu.memory.readBytes cpu.registers.pc
        (cpu.nextOpcode.operation.effect.fetches cpu.nextOpcode.mode + 1), cpu.step.2) := by
  have hcode : Opcode.ofByte ((cpu.memory.readBytes cpu.registers.pc 1).headD 0) =
      cpu.nextOpcode := by
    rw [Memory.readBytes_succ]
    rfl
  simp only [fetchExecute, fetch_eq, hcode, advance_advance]
  refine Prod.ext ?_ ?_
  · rw [Memory.readBytes_succ, Memory.readBytes_succ]
    rfl
  · rw [step_eq_perform, perform_withCycles, ← perform_cycles cpu cpu.nextOpcode, ← execute_eq]
    rfl

end Cpu
end Nmos6502
