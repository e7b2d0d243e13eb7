import Nmos6502.Proofs.Cpu.Fetching
import Nmos6502.Proofs.Cpu.ProgramCounter
import Nmos6502.Proofs.Cpu.StepFrame

set_option autoImplicit false

namespace Nmos6502

namespace Operation

def worksOnByte : Operation → Bool
  | adc | and | asl | bit | cmp | cpx | cpy | dec | eor | inc | lda | ldx | ldy | lsr | ora | rol
  | ror | sbc | sta | stx | sty => true
  | _ => false

theorem effect_of_worksOnByte {operation : Operation} (h : operation.worksOnByte = true) :
    (∃ update, operation.effect = .load update) ∨ (∃ source, operation.effect = .store source) ∨
      ∃ change, operation.effect = .modify change := by
  cases operation with
  | adc | and | bit | cmp | cpx | cpy | eor | lda | ldx | ldy | ora | sbc => exact .inl ⟨_, rfl⟩
  | sta | stx | sty => exact .inr (.inl ⟨_, rfl⟩)
  | asl | dec | inc | lsr | rol | ror => exact .inr (.inr ⟨_, rfl⟩)
  | _ => cases h

end Operation

def Opcode.hasMemoryOperand (opcode : Opcode) : Bool :=
  opcode.operation.worksOnByte && opcode.mode != .accumulator

set_option maxRecDepth 4000 in
theorem Opcode.mode_of_hasMemoryOperand {b : UInt8} (h : (ofByte b).hasMemoryOperand = true) :
    (ofByte b).mode ∉ [.implicit, .accumulator, .relative, .indirect] := by
  have all : ∀ opcode ∈ table.toList, opcode.hasMemoryOperand = true →
      opcode.mode ∉ [.implicit, .accumulator, .relative, .indirect] := by
    decide
  exact all _ (ofByte_mem_table b) h

def Registers.data (r : Registers) : Registers := { r with pc := 0 }

def Memory.cell (memory : Memory) (place : Nat) : Nat := (memory.read (UInt16.ofNat place)).toNat

/-- What becomes of the registers, up to the program counter, and of the byte worked on. -/
def Effect.outcome (r : Registers) (b : UInt8) : Effect → Registers × UInt8
  | load update => (update r b, b)
  | store source => (r, source r)
  | modify change => ({ r with status := (change r.status b).2 }, (change r.status b).1)
  | _ => (r, b)

theorem Registers.eq_of_data {r s : Registers} (h : r.data = s.data) : s = { r with pc := s.pc } := by
  obtain ⟨a, x, y, status, sp, pc⟩ := r
  obtain ⟨a', x', y', status', sp', pc'⟩ := s
  simp only [data, Registers.mk.injEq, and_true] at h
  simp [h]

theorem Effect.outcome_congr {effect : Effect} (hsame : effect.IgnoresPc) {r s : Registers}
    (h : r.data = s.data) (b : UInt8) :
    (effect.outcome r b).1.data = (effect.outcome s b).1.data ∧
      (effect.outcome r b).2 = (effect.outcome s b).2 := by
  rw [Registers.eq_of_data h]
  cases effect with
  | load update =>
    exact ⟨(congrArg Registers.data (hsame r b s.pc)).symm, rfl⟩
  | store source => exact ⟨rfl, (hsame _ _).symm⟩
  | modify change => exact ⟨rfl, rfl⟩
  | internal update | branch taken | jump | push source | pull update | call | returnFromCall
  | interrupt | returnFromInterrupt => exact ⟨rfl, rfl⟩

namespace Memory

variable (memory : Memory) (address : UInt16)

theorem cell_toNat : memory.cell address.toNat = (memory.read address).toNat := by
  rw [cell, UInt16.ofNat_toNat]

theorem cell_toNat_add (n : Nat) :
    memory.cell (address.toNat + n) = (memory.read (address + UInt16.ofNat n)).toNat := by
  rw [cell, UInt16.ofNat_add, UInt16.ofNat_toNat]

theorem cell_byte (b : UInt8) : memory.cell b.toNat = (memory.read b.toUInt16).toNat := by
  rw [← cell_toNat, UInt8.toNat_toUInt16]

end Memory

namespace Cpu

variable (cpu : Cpu Memory)

def operandNumber : Nat :=
  cpu.memory.cell (cpu.registers.pc.toNat + 1) +
    256 * cpu.memory.cell (cpu.registers.pc.toNat + 2)

/-- The place of the byte that an operand of a mode names, if it names one. -/
def operandPlace? (mode : AddressingMode) : Option Nat :=
  let cell := cpu.memory.cell
  let first := cell (cpu.registers.pc.toNat + 1)
  let x := cpu.registers.x.toNat
  let y := cpu.registers.y.toNat
  match mode with
  | .immediate => some ((cpu.registers.pc.toNat + 1) % 65536)
  | .zeroPage => some first
  | .zeroPageX => some ((first + x) % 256)
  | .zeroPageY => some ((first + y) % 256)
  | .absolute => some cpu.operandNumber
  | .absoluteX => some ((cpu.operandNumber + x) % 65536)
  | .absoluteY => some ((cpu.operandNumber + y) % 65536)
  | .indirectX => some (cell ((first + x) % 256) + 256 * cell ((first + x + 1) % 256))
  | .indirectY => some ((cell first + 256 * cell ((first + 1) % 256) + y) % 65536)
  | .implicit | .accumulator | .relative | .indirect => none

theorem cell_operand :
    cpu.memory.cell (cpu.registers.pc.toNat + 1) = cpu.operandByte.toNat :=
  cpu.memory.cell_toNat_add cpu.registers.pc 1

theorem operandNumber_eq : cpu.operandNumber = cpu.operandWord.toNat := by
  have hsecond := cpu.memory.cell_toNat_add cpu.registers.pc 2
  rw [operandNumber, cell_operand, hsecond, operandWord, Bus.readWord, word_toNat,
    UInt16.add_assoc]
  rfl

theorem zeroPageWord_toNat (place : UInt8) :
    (cpu.zeroPageWord place).toNat =
      cpu.memory.cell place.toNat + 256 * cpu.memory.cell ((place.toNat + 1) % 256) := by
  have hnext : (place + 1).toNat = (place.toNat + 1) % 256 := UInt8.toNat_add place 1
  rw [zeroPageWord, word_toNat, ← hnext, Memory.cell_byte, Memory.cell_byte]
  rfl

theorem effectiveAddress_unindexed {mode : AddressingMode} (h : cpu.indexOffset mode = 0) :
    cpu.effectiveAddress mode = cpu.baseAddress mode := by
  rw [effectiveAddress, h]
  exact UInt16.add_zero _

theorem effectiveAddress_toNat {mode : AddressingMode} {place : Nat}
    (h : cpu.operandPlace? mode = some place) : (cpu.effectiveAddress mode).toNat = place := by
  simp only [operandPlace?, cell_operand, operandNumber_eq] at h
  cases mode with
  | immediate | zeroPage | absolute =>
    cases h
    rw [effectiveAddress_unindexed cpu rfl]
    simp [baseAddress]
  | zeroPageX | zeroPageY =>
    cases h
    rw [effectiveAddress_unindexed cpu rfl, baseAddress, UInt8.toNat_toUInt16, UInt8.toNat_add]
  | absoluteX | absoluteY =>
    cases h
    rw [effectiveAddress, UInt16.toNat_add, UInt8.toNat_toUInt16]
    rfl
  | indirectX =>
    cases h
    rw [effectiveAddress_unindexed cpu rfl, baseAddress, zeroPageWord_toNat, UInt8.toNat_add,
      Nat.mod_add_mod]
  | indirectY =>
    cases h
    rw [effectiveAddress, UInt16.toNat_add, UInt8.toNat_toUInt16, baseAddress, zeroPageWord_toNat]
    rfl
  | implicit | accumulator | relative | indirect => cases h

variable {cpu}

theorem exists_operandPlace (h : cpu.nextOpcode.hasMemoryOperand = true) :
    ∃ place, cpu.operandPlace? cpu.nextOpcode.mode = some place := by
  have hmode := Opcode.mode_of_hasMemoryOperand h
  change cpu.nextOpcode.mode ∉ _ at hmode
  cases hcase : cpu.nextOpcode.mode with
  | implicit | accumulator | relative | indirect => simp [hcase] at hmode
  | _ => exact ⟨_, rfl⟩

theorem step_outcome (h : cpu.nextOpcode.hasMemoryOperand = true) :
    let target := cpu.effectiveAddress cpu.nextOpcode.mode
    let outcome := cpu.nextOpcode.operation.effect.outcome cpu.registers (cpu.memory.read target)
    cpu.step.2.registers.data = outcome.1.data ∧ cpu.step.2.memory.read target = outcome.2 ∧
      ∀ address, address ≠ target →
        cpu.step.2.memory.read address = cpu.memory.read address := by
  intro target outcome
  simp only [Opcode.hasMemoryOperand, Bool.and_eq_true, bne_iff_ne] at h
  obtain ⟨hworks, hmode⟩ := h
  have hcells := cpu.writtenCells_eq
  have hframe := cpu.step_sameOutside.memory
  rw [hcells] at hframe
  simp only [outcome]
  rw [step_eq_perform, perform] at hframe ⊢
  obtain ⟨update, heffect⟩ | ⟨source, heffect⟩ | ⟨change, heffect⟩ :=
    Operation.effect_of_worksOnByte hworks
  · rw [heffect] at hframe ⊢
    exact ⟨rfl, rfl, fun address _ => rfl⟩
  · rw [heffect] at hframe ⊢
    refine ⟨rfl, Memory.read_write_self _ _ _, fun address hout => ?_⟩
    exact hframe address (by simpa [Effect.cells] using hout)
  · rw [heffect] at hframe ⊢
    simp only [hmode, if_false, Effect.cells] at hframe ⊢
    refine ⟨rfl, Memory.read_write_self _ _ _, fun address hout => ?_⟩
    exact hframe address (by simpa using hout)

theorem wordInPage_toNat (pointer : UInt16) :
    (cpu.wordInPage pointer).toNat = cpu.memory.cell pointer.toNat +
      256 * cpu.memory.cell (pointer.toNat / 256 * 256 + (pointer.toNat + 1) % 256) := by
  have hlow : (lowByte pointer + 1).toNat = (pointer.toNat + 1) % 256 := by
    have hadd : (lowByte pointer + 1).toNat = ((lowByte pointer).toNat + 1) % 256 :=
      UInt8.toNat_add _ 1
    rw [hadd, lowByte_toNat, Nat.mod_add_mod]
  have hsecond : (word (lowByte pointer + 1) (highByte pointer)).toNat =
      pointer.toNat / 256 * 256 + (pointer.toNat + 1) % 256 := by
    rw [word_toNat, hlow, highByte_toNat]
    omega
  rw [wordInPage, word_toNat, ← hsecond, Memory.cell_toNat, Memory.cell_toNat]
  rfl

theorem step_jmp_indirect (hoperation : cpu.nextOpcode.operation = .jmp)
    (hmode : cpu.nextOpcode.mode = .indirect) :
    cpu.step.2.registers.pc.toNat = cpu.memory.cell cpu.operandNumber +
      256 * cpu.memory.cell (cpu.operandNumber / 256 * 256 + (cpu.operandNumber + 1) % 256) := by
  have htransfers : cpu.nextOpcode.operation.effect.transfersIn cpu.registers.status = true := by
    rw [hoperation]
    rfl
  have hpc : cpu.step.2.registers.pc = cpu.effectiveAddress cpu.nextOpcode.mode :=
    step_pc_of_transfersIn rfl htransfers
  rw [hpc, hmode, effectiveAddress_unindexed cpu rfl, baseAddress, wordInPage_toNat,
    operandNumber_eq]

/-- What an instruction does with a byte of memory is settled by its operation, the registers and
that byte, whatever mode names the place; no other byte changes. An indirect jump takes both bytes of
its target from one page. -/
theorem step_memory_operand (cpu : Cpu Memory) :
    (cpu.nextOpcode.hasMemoryOperand = true →
      ∃ place, cpu.operandPlace? cpu.nextOpcode.mode = some place ∧
        (∀ address : UInt16, address.toNat ≠ place →
          cpu.step.2.memory.read address = cpu.memory.read address) ∧
        ∀ (other : Cpu Memory) (otherPlace : Nat), other.nextOpcode.hasMemoryOperand = true →
          other.nextOpcode.operation = cpu.nextOpcode.operation →
          other.operandPlace? other.nextOpcode.mode = some otherPlace →
          other.registers.data = cpu.registers.data →
          other.memory.cell otherPlace = cpu.memory.cell place →
            other.step.2.registers.data = cpu.step.2.registers.data ∧
              other.step.2.memory.cell otherPlace = cpu.step.2.memory.cell place) ∧
    (cpu.nextOpcode.operation = .jmp → cpu.nextOpcode.mode = .indirect →
      cpu.step.2.registers.pc.toNat = cpu.memory.cell cpu.operandNumber +
        256 * cpu.memory.cell (cpu.operandNumber / 256 * 256 + (cpu.operandNumber + 1) % 256)) := by
  refine ⟨fun h => ?_, step_jmp_indirect⟩
  obtain ⟨place, hplace⟩ := exists_operandPlace h
  have htarget := cpu.effectiveAddress_toNat hplace
  obtain ⟨hdata, hbyte, hframe⟩ := step_outcome h
  refine ⟨place, hplace, fun address hout => ?_, ?_⟩
  · exact hframe address fun heq => hout (heq ▸ htarget)
  · intro other otherPlace hother hoperation hotherPlace hregisters hcell
    have hotherTarget := other.effectiveAddress_toNat hotherPlace
    obtain ⟨hotherData, hotherByte, -⟩ := step_outcome hother
    rw [← htarget, ← hotherTarget, Memory.cell_toNat, Memory.cell_toNat, UInt8.toNat_inj] at hcell
    obtain ⟨hsameData, hsameByte⟩ := Effect.outcome_congr
      cpu.nextOpcode.operation.effect_ignoresPc hregisters
        (cpu.memory.read (cpu.effectiveAddress cpu.nextOpcode.mode))
    rw [hoperation, hcell] at hotherData hotherByte
    refine ⟨by rw [hotherData, hdata, hsameData], ?_⟩
    rw [← htarget, ← hotherTarget, Memory.cell_toNat, Memory.cell_toNat, hotherByte, hbyte,
      hsameByte]

/-- A decimal addition at 0x40 by an index that wraps within page zero, the same at 0x50 through a
pointer that lies across the end of page zero, and at 0x60 a jump through that pointer. -/
def wrapping (pc : UInt16) : Cpu Memory where
  registers := { a := 0x19, x := 0xF0, status := { decimal := true }, pc }
  memory := [(0x00, 0x02), (0x10, 0x42), (0x40, 0x75), (0x41, 0x20), (0x50, 0x61), (0x51, 0x0F),
    (0x60, 0x6C), (0x61, 0xFF), (0xFF, 0x18), (0x218, 0x42)].foldl
      (fun memory cell => memory.write cell.1 cell.2) Memory.zero

theorem step_memory_operand_wrapping :
    ((wrapping 0x40).nextOpcode.hasMemoryOperand = true ∧
      (wrapping 0x40).operandPlace? (wrapping 0x40).nextOpcode.mode = some 0x10) ∧
    ((wrapping 0x50).nextOpcode.hasMemoryOperand = true ∧
      (wrapping 0x50).operandPlace? (wrapping 0x50).nextOpcode.mode = some 0x218) ∧
    (wrapping 0x50).step.2.registers.data = (wrapping 0x40).step.2.registers.data ∧
    (wrapping 0x60).step.2.registers.pc.toNat = 0x18 + 256 * 0x02 := by
  have hindexed : (wrapping 0x40).nextOpcode.hasMemoryOperand = true := by decide +kernel
  have hpointed : (wrapping 0x50).nextOpcode.hasMemoryOperand = true := by decide +kernel
  have hplace : (wrapping 0x40).operandPlace? (wrapping 0x40).nextOpcode.mode = some 0x10 := by
    decide +kernel
  have hother : (wrapping 0x50).operandPlace? (wrapping 0x50).nextOpcode.mode = some 0x218 := by
    decide +kernel
  obtain ⟨place, hfound, -, hsame⟩ := (step_memory_operand (wrapping 0x40)).1 hindexed
  obtain rfl : 0x10 = place := Option.some.inj (hplace.symm.trans hfound)
  refine ⟨⟨hindexed, hplace⟩, ⟨hpointed, hother⟩, ?_, ?_⟩
  · exact (hsame (wrapping 0x50) 0x218 hpointed (by decide +kernel) hother rfl
      (by decide +kernel)).1
  · exact ((step_memory_operand (wrapping 0x60)).2 (by decide +kernel) (by decide +kernel)).trans
      (by decide +kernel)

end Cpu
end Nmos6502
