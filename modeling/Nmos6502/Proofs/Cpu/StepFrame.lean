import Nmos6502.Proofs.Cpu.Footprint
import Nmos6502.Proofs.Cpu.StackCells

set_option autoImplicit false

namespace Nmos6502

def Effect.cells (mode : AddressingMode) (target : UInt16) (sp : UInt8) : Effect → List UInt16
  | store _ => [target]
  | modify _ => if mode = .accumulator then [] else [target]
  | push _ => [Cpu.stackAddress sp]
  | call => [Cpu.stackAddress sp, Cpu.stackAddress (sp - 1)]
  | interrupt => [Cpu.stackAddress sp, Cpu.stackAddress (sp - 1), Cpu.stackAddress (sp - 2)]
  | _ => []

theorem Registers.SameOutside.withPc {footprint : Footprint} {before after : Registers}
    (h : SameOutside footprint before after) (pc : UInt16) :
    SameOutside footprint before { after with pc } := by
  refine ⟨fun register hout => ?_, h.2⟩
  rw [← h.1 register hout]
  cases register <;> rfl

theorem Registers.SameOutside.withSp {footprint : Footprint} {before after : Registers}
    (h : SameOutside footprint before after) (hsp : .sp ∈ footprint.registers) (sp : UInt8) :
    SameOutside footprint before { after with sp } := by
  refine ⟨fun register hout => ?_, h.2⟩
  rw [← h.1 register hout]
  cases register with
  | sp => exact absurd hsp hout
  | _ => rfl

theorem Registers.SameOutside.refl (footprint : Footprint) (r : Registers) :
    SameOutside footprint r r :=
  ⟨fun _ _ => rfl, fun _ _ => rfl⟩

theorem Registers.SameOutside.trans {footprint : Footprint} {before middle after : Registers}
    (hfirst : SameOutside footprint before middle) (hsecond : SameOutside footprint middle after) :
    SameOutside footprint before after :=
  ⟨fun register hout => (hsecond.1 register hout).trans (hfirst.1 register hout),
    fun flag hout => (hsecond.2 flag hout).trans (hfirst.2 flag hout)⟩

theorem Status.pushed_eq (status : Status) : status.pushed = status.toByte ||| 0x30 := by
  obtain ⟨n, v, u, b, d, i, z, c⟩ := status
  cases n <;> cases v <;> cases u <;> cases b <;> cases d <;> cases i <;> cases z <;> cases c
  all_goals rfl

theorem Operation.eq_of_unused_mem {operation : Operation} {mode : AddressingMode}
    (h : .unused ∈ (operation.footprint mode).flags) : operation = .plp ∨ operation = .rti := by
  cases operation with
  | plp | rti => simp
  | _ => simp [footprint] at h

namespace Cpu

/-- Where the next instruction is documented to write to memory. -/
def writtenCells (cpu : Cpu Memory) : List UInt16 :=
  let target := cpu.effectiveAddress cpu.nextOpcode.mode
  let sp := cpu.registers.sp
  match cpu.nextOpcode.operation with
  | .sta | .stx | .sty | .inc | .dec => [target]
  | .asl | .lsr | .rol | .ror => if cpu.nextOpcode.mode = .accumulator then [] else [target]
  | .pha | .php => [stackAddress sp]
  | .jsr => [stackAddress sp, stackAddress (sp - 1)]
  | .brk => [stackAddress sp, stackAddress (sp - 1), stackAddress (sp - 2)]
  | _ => []

def statusCell? (cpu : Cpu Memory) : Option UInt16 :=
  match cpu.nextOpcode.operation with
  | .php => some (stackAddress cpu.registers.sp)
  | .brk => some (stackAddress (cpu.registers.sp - 2))
  | _ => none

/-- Whether a processor is as before, apart from the program counter, the counter of cycles, a
footprint and some cells. -/
structure SameOutside (footprint : Footprint) (cells : List UInt16) (before after : Cpu Memory) :
    Prop where
  registers : Registers.SameOutside footprint before.registers after.registers
  memory : ∀ address, address ∉ cells → after.memory.read address = before.memory.read address

theorem SameOutside.mono {footprint : Footprint} {small large : List UInt16}
    {before after : Cpu Memory} (h : SameOutside footprint small before after)
    (hcells : small ⊆ large) : SameOutside footprint large before after :=
  ⟨h.registers, fun address hout => h.memory address fun hin => hout (hcells hin)⟩

theorem SameOutside.trans {footprint : Footprint} {cells : List UInt16}
    {before middle after : Cpu Memory} (hfirst : SameOutside footprint cells before middle)
    (hsecond : SameOutside footprint cells middle after) :
    SameOutside footprint cells before after :=
  ⟨hfirst.registers.trans hsecond.registers, fun address hout =>
    (hsecond.memory address hout).trans (hfirst.memory address hout)⟩

variable (cpu : Cpu Memory)

theorem writtenCells_eq :
    cpu.writtenCells = cpu.nextOpcode.operation.effect.cells cpu.nextOpcode.mode
      (cpu.effectiveAddress cpu.nextOpcode.mode) cpu.registers.sp := by
  have hmode := Opcode.mode_ne_accumulator (b := Bus.read cpu.memory cpu.registers.pc)
  change cpu.nextOpcode.operation = .inc ∨ cpu.nextOpcode.operation = .dec →
    cpu.nextOpcode.mode ≠ .accumulator at hmode
  unfold writtenCells
  cases hoperation : cpu.nextOpcode.operation with
  | inc | dec => simp [Operation.effect, Effect.step, Effect.cells, hmode, hoperation]
  | _ => rfl

theorem read_push_other {address : UInt16} (value : UInt8)
    (h : address ≠ stackAddress cpu.registers.sp) :
    (cpu.push value).memory.read address = cpu.memory.read address :=
  Memory.read_write_other _ _ h

theorem read_pushWord_other {address : UInt16} (value : UInt16)
    (hfirst : address ≠ stackAddress cpu.registers.sp)
    (hsecond : address ≠ stackAddress (cpu.registers.sp - 1)) :
    (cpu.pushWord value).memory.read address = cpu.memory.read address :=
  ((cpu.push (highByte value)).read_push_other _ hsecond).trans (cpu.read_push_other _ hfirst)

theorem perform_memory (opcode : Opcode) {address : UInt16}
    (h : address ∉ opcode.operation.effect.cells opcode.mode (cpu.effectiveAddress opcode.mode)
      cpu.registers.sp) :
    (cpu.perform opcode).memory.read address = cpu.memory.read address := by
  unfold perform
  cases heffect : opcode.operation.effect with
  | store source =>
    rw [heffect, Effect.cells, List.mem_singleton] at h
    exact Memory.read_write_other _ _ h
  | modify change =>
    by_cases hmode : opcode.mode = .accumulator
    · simp only [hmode, if_true]
    · simp only [heffect, Effect.cells, hmode, if_false, List.mem_singleton] at h
      simp only [hmode, if_false]
      exact Memory.read_write_other _ _ h
  | push source =>
    rw [heffect, Effect.cells, List.mem_singleton] at h
    exact read_push_other _ _ h
  | call =>
    simp only [heffect, Effect.cells, List.mem_cons, List.not_mem_nil, or_false, not_or] at h
    exact read_pushWord_other _ _ h.1 h.2
  | interrupt =>
    simp only [heffect, Effect.cells, List.mem_cons, List.not_mem_nil, or_false, not_or] at h
    obtain ⟨hfirst, hsecond, hthird⟩ := h
    have hsp : cpu.registers.sp - 2 = cpu.registers.sp - 1 - 1 := sub_succ _ 1
    rw [hsp] at hthird
    have hword := cpu.read_pushWord_other (cpu.registers.pc + 2) hfirst hsecond
    have hstatus := read_push_other (cpu.pushWord (cpu.registers.pc + 2))
      cpu.registers.status.pushed hthird
    exact hstatus.trans hword
  | load update | internal update | branch taken | jump | pull update | returnFromCall
  | returnFromInterrupt => rfl

theorem perform_registers {opcode : Opcode} {footprint : Footprint}
    (h : opcode.operation.effect.Within opcode.mode footprint) :
    Registers.SameOutside footprint cpu.registers (cpu.perform opcode).registers := by
  have hrefl := Registers.SameOutside.refl footprint cpu.registers
  unfold perform
  cases heffect : opcode.operation.effect with
  | load update =>
    rw [heffect] at h
    exact (h _ _).withPc _
  | internal update =>
    rw [heffect] at h
    exact (h _).withPc _
  | store source | branch taken | jump => exact hrefl.withPc _
  | modify change =>
    rw [heffect] at h
    by_cases hmode : opcode.mode = .accumulator
    · simp only [hmode, if_true]
      refine ⟨fun register hout => ?_, h.2 _ _⟩
      cases register with
      | a => exact absurd (h.1 hmode) hout
      | _ => rfl
    · simp only [hmode, if_false]
      refine ⟨fun register hout => ?_, h.2 _ _⟩
      cases register <;> rfl
  | push source =>
    rw [heffect] at h
    exact (hrefl.withPc _).withSp h _
  | pull update =>
    rw [heffect] at h
    have hsp := hrefl.withSp h.1 (cpu.registers.sp + 1)
    exact (hsp.trans (h.2 _ (cpu.peek 0))).withPc _
  | call =>
    rw [heffect] at h
    exact ((hrefl.withPc _).withSp h _).withSp h _
  | returnFromCall =>
    rw [heffect] at h
    exact (hrefl.withSp h (cpu.registers.sp + 2)).withPc (cpu.peekWord 0 + 1)
  | interrupt =>
    rw [heffect] at h
    obtain ⟨hsp, hbreak, hinterrupt⟩ := h
    refine ⟨fun register hout => ?_, fun flag hout => ?_⟩
    · cases register with
      | sp => exact absurd hsp hout
      | _ => rfl
    · cases flag with
      | breakFlag => exact absurd hbreak hout
      | interruptDisable => exact absurd hinterrupt hout
      | _ => rfl
  | returnFromInterrupt =>
    rw [heffect] at h
    refine ⟨fun register hout => ?_, fun flag hout => absurd (h.2 flag) hout⟩
    cases register with
    | sp => exact absurd h.1 hout
    | _ => rfl

theorem step_sameOutside :
    SameOutside (cpu.nextOpcode.operation.footprint cpu.nextOpcode.mode) cpu.writtenCells cpu
      cpu.step.2 := by
  have hwithin : cpu.nextOpcode.operation.effect.Within cpu.nextOpcode.mode
      (cpu.nextOpcode.operation.footprint cpu.nextOpcode.mode) :=
    Operation.effect_within Opcode.mode_ne_accumulator
  rw [step_eq_perform]
  constructor
  · exact perform_registers { cpu with cycles := cpu.cycles + UInt64.ofNat cpu.upcoming.cycles }
      hwithin
  · intro address hout
    rw [writtenCells_eq] at hout
    exact perform_memory _ _ hout

theorem step_brk (h : cpu.nextOpcode.operation = .brk) :
    cpu.step.2.registers.status =
      { cpu.registers.status with breakFlag := true, interruptDisable := true } := by
  rw [step_eq_perform, perform, h]
  rfl

theorem step_undefined (h : cpu.nextOpcode.operation = .undefined) :
    cpu.step.1.cycles = 2 ∧
      cpu.step.2 =
        { cpu with
          registers := { cpu.registers with pc := cpu.registers.pc + 1 }
          cycles := cpu.cycles + 2 } := by
  have hgap : cpu.nextOpcode = .gap := Opcode.eq_gap h
  have hcycles : cpu.upcoming.cycles = 2 := by
    change cpu.nextOpcode.cycles + cpu.extraCycles cpu.nextOpcode = 2
    rw [hgap]
    rfl
  have hfetches : Opcode.gap.operation.effect.fetches Opcode.gap.mode = 0 := rfl
  refine ⟨hcycles, ?_⟩
  rw [step_eq_perform, hcycles, hgap, perform, behind_eq hfetches]
  rfl

theorem isBreak_step_iff : cpu.step.1.isBreak = true ↔ cpu.memory.read cpu.registers.pc = 0 := by
  rw [← Opcode.operation_eq_brk_iff]
  exact beq_iff_eq

theorem read_statusCell {address : UInt16} (h : address ∈ cpu.statusCell?) :
    cpu.step.2.memory.read address = cpu.registers.status.toByte ||| 0x30 := by
  rw [← Status.pushed_eq, step_eq_perform, perform]
  unfold statusCell? at h
  cases hoperation : cpu.nextOpcode.operation with
  | php =>
    simp only [hoperation, Option.mem_some_iff] at h
    subst h
    exact Memory.read_write_self _ _ _
  | brk =>
    simp only [hoperation, Option.mem_some_iff] at h
    have hsp : cpu.registers.sp - 2 = cpu.registers.sp - 1 - 1 := sub_succ _ 1
    rw [hsp] at h
    subst h
    exact Memory.read_write_self _ _ _
  | _ => simp [hoperation] at h

theorem unused_step (h : cpu.registers.status.unused = true) :
    cpu.step.2.registers.status.unused = true := by
  by_cases hmem : .unused ∈ (cpu.nextOpcode.operation.footprint cpu.nextOpcode.mode).flags
  · rw [step_eq_perform, perform]
    rcases Operation.eq_of_unused_mem hmem with hoperation | hoperation
    · rw [hoperation]
      rfl
    · rw [hoperation]
      rfl
  · exact (cpu.step_sameOutside.registers.2 .unused hmem).trans h

theorem unused_after (h : cpu.registers.status.unused = true) (n : Nat) :
    (cpu.after n).registers.status.unused = true := by
  induction n generalizing cpu with
  | zero => exact h
  | succ n ih => exact ih cpu.step.2 (cpu.unused_step h)

/-- A step changes the footprint of its operation and nothing else, an undefined opcode is skipped in
two cycles, and only opcode 0 is a software interrupt. In a run from a reset the unused flag stays
set, and the flags are pushed with it and the break flag set. -/
theorem step_frame :
    SameOutside (cpu.nextOpcode.operation.footprint cpu.nextOpcode.mode) cpu.writtenCells cpu
        cpu.step.2 ∧
      (cpu.nextOpcode.operation = .brk →
        cpu.step.2.registers.status.breakFlag = true ∧
          cpu.step.2.registers.status.interruptDisable = true) ∧
      (cpu.nextOpcode.operation = .undefined →
        cpu.step.1.cycles = 2 ∧
          cpu.step.2 =
            { cpu with
              registers := { cpu.registers with pc := cpu.registers.pc + 1 }
              cycles := cpu.cycles + 2 }) ∧
      (cpu.step.1.isBreak = true ↔ cpu.memory.read cpu.registers.pc = 0) ∧
      ∀ n, (cpu.reset.after n).registers.status.unused = true ∧
        ∀ address ∈ (cpu.reset.after n).statusCell?,
          (cpu.reset.after (n + 1)).memory.read address =
            (cpu.reset.after n).registers.status.toByte ||| 0x30 := by
  refine ⟨cpu.step_sameOutside, fun h => ?_, cpu.step_undefined, cpu.isBreak_step_iff, fun n => ?_⟩
  · rw [cpu.step_brk h]
    exact ⟨rfl, rfl⟩
  · refine ⟨cpu.reset.unused_after rfl n, fun address haddress => ?_⟩
    rw [after_succ]
    exact read_statusCell _ haddress

def interrupted : Cpu Memory where
  registers := { sp := 1, pc := 0x10 }
  memory := Memory.zero

theorem step_frame_interrupted :
    interrupted.nextOpcode.operation = .brk ∧
      SameOutside ⟨[.sp], [.breakFlag, .interruptDisable]⟩ [0x0101, 0x0100, 0x01FF] interrupted
        interrupted.step.2 ∧
      interrupted.step.2.registers.status.breakFlag = true ∧
        interrupted.step.2.registers.status.interruptDisable = true := by
  have hoperation : interrupted.nextOpcode.operation = .brk := by decide +kernel
  have hcells : interrupted.writtenCells = [0x0101, 0x0100, 0x01FF] := by
    unfold writtenCells
    rw [hoperation]
    rfl
  obtain ⟨hframe, hbrk, -⟩ := step_frame interrupted
  rw [hoperation, hcells] at hframe
  exact ⟨hoperation, hframe, hbrk hoperation⟩

end Cpu
end Nmos6502
