import Nmos6502.Emulator.Basic
import Nmos6502.Proofs.Cpu.Fetching
import Nmos6502.Proofs.Cpu.ProgramCounter
import Nmos6502.Proofs.Disassembly.Decoding

set_option autoImplicit false

namespace Nmos6502

theorem Operation.mnemonic_eq_brk_iff {operation : Operation} :
    operation.mnemonic = "BRK" ↔ operation = .brk := by
  cases operation <;> decide

theorem AddressingMode.operandSize_le_two (mode : AddressingMode) : mode.operandSize ≤ 2 := by
  cases mode <;> decide

theorem Memory.takePadded_readBytes (memory : Memory) (address : UInt16) {m n : Nat} (h : m ≤ n) :
    Disassembly.takePadded m (memory.readBytes address n) = memory.readBytes address m := by
  induction m generalizing address n with
  | zero => rfl
  | succ m ih =>
    obtain ⟨n, rfl⟩ := Nat.exists_eq_succ_of_ne_zero (by omega : n ≠ 0)
    rw [Nat.succ_eq_add_one, readBytes_succ, readBytes_succ, Disassembly.takePadded,
      ih _ (Nat.le_of_succ_le_succ h)]

theorem Disassembly.instructionText_dollar (mnemonic : String) {mode : AddressingMode}
    {operands : List UInt8} {address target : UInt16}
    (h : mode.operandText operands address = "$" ++ Hex.word target) :
    instructionText mnemonic mode operands address = mnemonic ++ " $" ++ Hex.word target := by
  have hsome : ("$" ++ Hex.word target).isEmpty = false := by
    simp
  simp only [instructionText, h, hsome, Bool.false_eq_true, if_false]
  rw [String.append_assoc, String.append_assoc]
  rfl

namespace Cpu

variable (cpu : Cpu Memory)

theorem nextInstruction_code : cpu.nextInstruction.code = cpu.memory.read cpu.registers.pc := by
  rw [nextInstruction, Memory.readBytes_succ]
  rfl

theorem nextInstruction_opcode : cpu.nextInstruction.opcode = cpu.nextOpcode := by
  rw [Disassembly.Instruction.opcode, nextInstruction_code]
  rfl

theorem nextInstruction_operands :
    cpu.nextInstruction.operands =
      cpu.memory.readBytes (cpu.registers.pc + 1) cpu.nextOpcode.mode.operandSize := by
  rw [← nextInstruction_opcode, nextInstruction, Memory.readBytes_succ]
  exact Memory.takePadded_readBytes _ _ (AddressingMode.operandSize_le_two _)

theorem nextInstruction_bytes :
    cpu.nextInstruction.bytes = cpu.memory.readBytes cpu.registers.pc cpu.nextOpcode.size := by
  rw [Disassembly.Instruction.bytes, nextInstruction_code, nextInstruction_operands, Opcode.size,
    AddressingMode.instructionSize, Memory.readBytes_succ]

theorem length_nextInstruction_bytes :
    cpu.nextInstruction.bytes.length = cpu.nextOpcode.size := by
  rw [nextInstruction_bytes]
  simp [Memory.readBytes]

theorem nextInstruction_text
    (hmode : cpu.nextOpcode.mode = .relative ∨ cpu.nextOpcode.mode = .absolute) :
    cpu.nextInstruction.text = cpu.nextInstruction.opcode.mnemonic ++ " $" ++
      Hex.word (cpu.effectiveAddress cpu.nextOpcode.mode) := by
  refine Disassembly.instructionText_dollar _ ?_
  rw [nextInstruction_opcode, nextInstruction_operands]
  rcases hmode with hmode | hmode
  · rw [hmode, effectiveAddress_relative]
    simp only [AddressingMode.operandText, AddressingMode.operandSize, Memory.readBytes_succ]
    rfl
  · rw [hmode, effectiveAddress_absolute]
    simp only [AddressingMode.operandText, AddressingMode.operandSize, Memory.readBytes_succ,
      UInt16.add_assoc]
    rfl

/-- Whether the next instruction goes to the address that its operand shows. -/
def ShowsTarget : Prop :=
  cpu.takesBranch = true ∨
    cpu.nextOpcode.operation = .jmp ∧ cpu.nextOpcode.mode = .absolute ∨
      cpu.nextOpcode.operation = .jsr

variable {cpu}

theorem transfers_of_showsTarget (h : cpu.ShowsTarget) :
    cpu.nextOpcode.operation.effect.transfersIn cpu.registers.status = true ∧
      (cpu.nextOpcode.mode = .relative ∨ cpu.nextOpcode.mode = .absolute) := by
  rcases h with hbranch | ⟨hjmp, hmode⟩ | hjsr
  · simp only [takesBranch, Bool.and_eq_true] at hbranch
    exact ⟨hbranch.2, .inl ((Opcode.mode_eq_relative_iff _).mpr hbranch.1)⟩
  · exact ⟨by rw [hjmp]; rfl, .inr hmode⟩
  · exact ⟨by rw [hjsr]; rfl, .inr (Opcode.mode_of_jsr hjsr)⟩

theorem step_pc_of_showsTarget (h : cpu.ShowsTarget) :
    cpu.nextInstruction.text = cpu.nextInstruction.opcode.mnemonic ++ " $" ++
      Hex.word cpu.step.2.registers.pc := by
  obtain ⟨htransfers, hmode⟩ := transfers_of_showsTarget h
  rw [nextInstruction_text _ hmode, step_pc_of_transfersIn rfl htransfers]
  rfl

end Cpu

namespace Emulator

variable {σ : Type}

/-- The bytes of the next instruction are those that a step takes, and unless the instruction is
one of those that go on elsewhere, the step ends behind them. A branch that is taken, a jump and a
call show the address where they go on, and only BRK is a software interrupt. -/
theorem nextInstruction_predicts (emulator : Emulator σ) :
    let next := emulator.nextInstruction
    let cpu := emulator.cpu
    let after := emulator.step.2.cpu
    cpu.fetchExecute = (next.bytes, after) ∧
      next.bytes = cpu.memory.readBytes cpu.registers.pc next.bytes.length ∧
      (next.opcode.operation ∉ [.brk, .jmp, .jsr, .rts, .rti] → cpu.takesBranch = false →
        after.registers.pc = cpu.registers.pc + UInt16.ofNat next.bytes.length) ∧
      (cpu.ShowsTarget →
        next.text = next.opcode.mnemonic ++ " $" ++ Hex.word after.registers.pc) ∧
      (emulator.step.1.isBreak = true ↔ next.opcode.mnemonic = "BRK") := by
  obtain ⟨cpu, pacing, hooks, session⟩ := emulator
  change cpu.fetchExecute = (cpu.nextInstruction.bytes, cpu.step.2) ∧
    cpu.nextInstruction.bytes =
      cpu.memory.readBytes cpu.registers.pc cpu.nextInstruction.bytes.length ∧
    (cpu.nextInstruction.opcode.operation ∉ [.brk, .jmp, .jsr, .rts, .rti] →
      cpu.takesBranch = false → cpu.step.2.registers.pc =
        cpu.registers.pc + UInt16.ofNat cpu.nextInstruction.bytes.length) ∧
    (cpu.ShowsTarget → cpu.nextInstruction.text = cpu.nextInstruction.opcode.mnemonic ++ " $" ++
      Hex.word cpu.step.2.registers.pc) ∧
    (cpu.step.1.isBreak = true ↔ cpu.nextInstruction.opcode.mnemonic = "BRK")
  rw [cpu.length_nextInstruction_bytes, cpu.nextInstruction_opcode]
  refine ⟨?_, cpu.nextInstruction_bytes, Cpu.step_pc_of_plain, fun h => ?_, ?_⟩
  · have hfetches : cpu.nextOpcode.operation.effect.fetches cpu.nextOpcode.mode + 1 =
        cpu.nextOpcode.size := congrArg (· + 1) (Opcode.fetches_eq _)
    rw [cpu.fetchExecute_eq, hfetches, cpu.nextInstruction_bytes]
  · rw [← cpu.nextInstruction_opcode]
    exact Cpu.step_pc_of_showsTarget h
  · rw [Opcode.mnemonic, Operation.mnemonic_eq_brk_iff]
    exact beq_iff_eq

def storing : Emulator Unit where
  cpu :=
    { registers := { a := 7, pc := 0x10 }
      memory := ((Memory.zero.write 0x10 0x8D).write 0x11 0x11).write 0x12 0x00 }
  session := { state := () }

/-- An emulator in front of a branch that is taken and leads back past address 0. -/
def branching : Emulator Unit where
  cpu := { memory := (Memory.zero.write 0 0xD0).write 1 0xF0 }
  session := { state := () }

theorem nextInstruction_predicts_wrapped :
    (storing.nextInstruction.opcode.operation ∉ [.brk, .jmp, .jsr, .rts, .rti] ∧
      storing.cpu.takesBranch = false ∧ storing.nextInstruction.bytes = [0x8D, 0x11, 0x00] ∧
        storing.step.2.cpu.registers.pc = 0x13) ∧
      branching.cpu.ShowsTarget ∧ branching.nextInstruction.text = "BNE $FFF2" := by
  have hplain : storing.nextInstruction.opcode.operation ∉ [.brk, .jmp, .jsr, .rts, .rti] := by
    decide +kernel
  have hnone : storing.cpu.takesBranch = false := by decide +kernel
  have hbytes : storing.nextInstruction.bytes = [0x8D, 0x11, 0x00] := by decide +kernel
  have hshows : branching.cpu.ShowsTarget := .inl (by decide +kernel)
  have hmnemonic : branching.nextInstruction.opcode.mnemonic = "BNE" := by decide +kernel
  have htarget : branching.step.2.cpu.registers.pc = 0xFFF2 := by decide +kernel
  obtain ⟨-, -, hpc, -, -⟩ := nextInstruction_predicts storing
  obtain ⟨-, -, -, htext, -⟩ := nextInstruction_predicts branching
  refine ⟨⟨hplain, hnone, hbytes, (hpc hplain hnone).trans ?_⟩, hshows, (htext hshows).trans ?_⟩
  · rw [hbytes]
    rfl
  · rw [hmnemonic, htarget]
    decide

end Emulator
end Nmos6502
