import Nmos6502.Proofs.Cpu.Trace
import Nmos6502.Proofs.OpcodeLookup

set_option autoImplicit false

namespace Nmos6502

/-- Whether an effect goes to the address of the operand when the flags are as given. -/
def Effect.transfersIn (status : Status) : Effect → Bool
  | branch taken => taken status
  | jump | call => true
  | _ => false

theorem Effect.isBranch_or_isJump {effect : Effect} {status : Status}
    (h : effect.transfersIn status = true) : effect.isBranch = true ∨ effect.isJump = true := by
  cases effect <;> simp_all [transfersIn, isBranch, isJump]

def Effect.redirects : Effect → Bool
  | .jump | .call | .returnFromCall | .interrupt | .returnFromInterrupt => true
  | _ => false

theorem Operation.mem_of_redirects {operation : Operation} (h : operation.effect.redirects = true) :
    operation ∈ [brk, jmp, jsr, rts, rti] := by
  cases operation with
  | brk | jmp | jsr | rts | rti => decide
  | _ => cases h

set_option maxRecDepth 4000 in
/-- The processor takes as many operand bytes as the length of the instruction tells. -/
theorem Opcode.fetches_eq (b : UInt8) :
    (ofByte b).operation.effect.fetches (ofByte b).mode = (ofByte b).mode.operandSize := by
  have all : ∀ opcode ∈ table.toList,
      opcode.operation.effect.fetches opcode.mode = opcode.mode.operandSize := by
    decide
  exact all _ (ofByte_mem_table b)

namespace Cpu

variable {M : Type} [Bus M] {cpu : Cpu M} {code : UInt8}

theorem step_pc_of_transfersIn (hcode : Bus.read cpu.memory cpu.registers.pc = code)
    (h : (Opcode.ofByte code).operation.effect.transfersIn cpu.registers.status = true) :
    cpu.step.2.registers.pc = cpu.effectiveAddress (Opcode.ofByte code).mode := by
  simp only [step, upcoming, hcode, perform]
  cases heffect : (Opcode.ofByte code).operation.effect with
  | branch taken =>
    simp only [heffect, Effect.transfersIn] at h
    simp only [h, if_true]
    rfl
  | jump => rfl
  | call => rfl
  | load update | store source | modify change | internal update | push source | pull update
  | returnFromCall | interrupt | returnFromInterrupt =>
    simp [heffect, Effect.transfersIn] at h

theorem effectiveAddress_relative :
    cpu.effectiveAddress .relative =
      cpu.registers.pc + 2 + signExtend (Bus.read cpu.memory (cpu.registers.pc + 1)) := by
  simp [effectiveAddress, baseAddress, indexOffset, operandByte]

theorem effectiveAddress_absolute :
    cpu.effectiveAddress .absolute =
      word (Bus.read cpu.memory (cpu.registers.pc + 1))
        (Bus.read cpu.memory (cpu.registers.pc + 2)) := by
  simp [effectiveAddress, baseAddress, indexOffset, operandWord, Bus.readWord, UInt16.add_assoc]

/-- Whether the next instruction is a branch that is taken. -/
def takesBranch (cpu : Cpu M) : Bool :=
  cpu.nextOpcode.operation.effect.isBranch &&
    cpu.nextOpcode.operation.effect.transfersIn cpu.registers.status

theorem behind_nextOpcode :
    cpu.behind cpu.nextOpcode = cpu.registers.pc + UInt16.ofNat cpu.nextOpcode.size :=
  behind_eq (Opcode.fetches_eq _)

theorem step_pc_of_plain (hoperation : cpu.nextOpcode.operation ∉ [.brk, .jmp, .jsr, .rts, .rti])
    (hbranch : cpu.takesBranch = false) :
    cpu.step.2.registers.pc = cpu.registers.pc + UInt16.ofNat cpu.nextOpcode.size := by
  have hstays : ¬ cpu.nextOpcode.operation.effect.redirects = true :=
    fun h => hoperation (Operation.mem_of_redirects h)
  unfold takesBranch at hbranch
  rw [← behind_nextOpcode, step_eq_perform, perform]
  cases heffect : cpu.nextOpcode.operation.effect with
  | load update | store source | internal update | push source | pull update => rfl
  | modify change =>
    dsimp only
    by_cases hmode : cpu.nextOpcode.mode = .accumulator
    · rw [if_pos hmode]
      rfl
    · rw [if_neg hmode]
      rfl
  | branch taken =>
    rw [heffect] at hbranch
    have hnot : ¬ taken cpu.registers.status = true := by
      simpa [Effect.isBranch, Effect.transfersIn] using hbranch
    exact if_neg hnot
  | jump | call | returnFromCall | interrupt | returnFromInterrupt =>
    rw [heffect] at hstays
    exact absurd rfl hstays

end Cpu
end Nmos6502
