import Nmos6502.Proofs.Cpu.Trace

set_option autoImplicit false

namespace Nmos6502

namespace Bus

variable {M : Type} [Bus M]

/-- Whether a memory has some bytes from an address on, at address 0 again behind the last one. -/
def Holds (memory : M) : UInt16 → List UInt8 → Prop
  | _, [] => True
  | address, b :: rest => read memory address = b ∧ Holds memory (address + 1) rest

instance decidableHolds (memory : M) :
    (address : UInt16) → (bytes : List UInt8) → Decidable (Holds memory address bytes)
  | _, [] => isTrue trivial
  | address, b :: rest =>
    have := decidableHolds memory (address + 1) rest
    inferInstanceAs (Decidable (read memory address = b ∧ Holds memory (address + 1) rest))

theorem holds_append (memory : M) (address : UInt16) (first second : List UInt8) :
    Holds memory address (first ++ second) ↔
      Holds memory address first ∧
        Holds memory (address + UInt16.ofNat first.length) second := by
  induction first generalizing address with
  | nil => simp [Holds]
  | cons b rest ih =>
    have hnext : address + 1 + UInt16.ofNat rest.length =
        address + UInt16.ofNat (rest.length + 1) := by
      rw [UInt16.add_assoc, Nat.add_comm, UInt16.ofNat_add]
      rfl
    rw [List.cons_append, Holds, Holds, ih, hnext, List.length_cons, and_assoc]

end Bus

namespace Cpu

variable {M : Type} [Bus M] {cpu : Cpu M} {code operand : UInt8}

theorem step_immediate (hholds : Bus.Holds cpu.memory cpu.registers.pc [code, operand])
    (hmode : (Opcode.ofByte code).mode = .immediate) {update : Registers → UInt8 → Registers}
    (heffect : (Opcode.ofByte code).operation.effect = .load update) :
    cpu.step.2.registers = { update cpu.registers operand with pc := cpu.registers.pc + 2 } ∧
      cpu.step.2.memory = cpu.memory := by
  obtain ⟨hcode, hoperand, -⟩ := hholds
  have htarget : cpu.effectiveAddress .immediate = cpu.registers.pc + 1 :=
    UInt16.add_zero _
  have hopcode : cpu.nextOpcode = Opcode.ofByte code := congrArg Opcode.ofByte hcode
  have hfetches : (Opcode.ofByte code).operation.effect.fetches (Opcode.ofByte code).mode = 1 := by
    rw [heffect, hmode]
    rfl
  have hstep : cpu.step.2.registers =
        { update cpu.registers (Bus.read cpu.memory (cpu.effectiveAddress .immediate)) with
          pc := cpu.registers.pc + 2 } ∧
      cpu.step.2.memory = cpu.memory := by
    rw [step_eq_perform, hopcode, perform, behind_eq hfetches, heffect, hmode]
    exact ⟨rfl, rfl⟩
  rw [htarget, hoperand] at hstep
  exact hstep

end Cpu
end Nmos6502
