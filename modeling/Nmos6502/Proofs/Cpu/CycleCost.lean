import Nmos6502.Proofs.Cpu.Executions
import Nmos6502.Proofs.Cpu.Footprint
import Nmos6502.Proofs.Cpu.ProgramCounter

/-!
# What a step costs

The cycles of a step are those of the opcode table and at most two penalties: one for an index that
leads to another page, and one for a branch that is taken. A processor that meters the penalties as
they arise, in fields in which the step before left something, comes to the same. Main statements:
`extraCycles_eq`, `metered_eq` and `step_cost`.
-/

set_option autoImplicit false

namespace Nmos6502

def Effect.isLoad : Effect → Bool
  | load _ => true
  | _ => false

def Effect.isInterrupt : Effect → Bool
  | interrupt => true
  | _ => false

namespace Operation

def condition? : Operation → Option (Flag × Bool)
  | bcc => some (.carry, false)
  | bcs => some (.carry, true)
  | beq => some (.zero, true)
  | bmi => some (.negative, true)
  | bne => some (.zero, false)
  | bpl => some (.negative, false)
  | bvc => some (.overflow, false)
  | bvs => some (.overflow, true)
  | _ => none

def branchesOn (operation : Operation) (status : Status) : Bool :=
  operation.condition?.any fun (flag, value) => status.get flag == value

def writesByte (operation : Operation) : Bool :=
  operation ∈ [sta, stx, sty, asl, lsr, rol, ror, inc, dec]

theorem branchesOn_eq (operation : Operation) (status : Status) :
    operation.branchesOn status =
      (operation.effect.isBranch && operation.effect.transfersIn status) := by
  cases operation with
  | bcc | bcs | beq | bmi | bne | bpl | bvc | bvs =>
    simp [branchesOn, condition?, effect, Effect.isBranch, Effect.transfersIn, Status.get]
  | _ => rfl

theorem isInterrupt_effect (operation : Operation) :
    operation.effect.isInterrupt = (operation == .brk) := by
  cases operation <;> rfl

theorem isLoad_of_writesByte {operation : Operation} (h : operation.writesByte = true) :
    operation.effect.isLoad = false ∧ operation.effect.isBranch = false := by
  cases operation with
  | sta | stx | sty | asl | lsr | rol | ror | inc | dec => exact ⟨rfl, rfl⟩
  | _ => simp [writesByte] at h

end Operation

set_option maxRecDepth 4000 in
theorem Opcode.isLoad_of_pagePenalty {b : UInt8} (h : (ofByte b).pagePenalty = true) :
    (ofByte b).operation.effect.isLoad = true := by
  have all : ∀ opcode ∈ table.toList, opcode.pagePenalty = true →
      opcode.operation.effect.isLoad = true := by
    decide
  exact all _ (ofByte_mem_table b) h

theorem samePage_iff (a b : UInt16) : samePage a b = true ↔ a.toNat / 256 = b.toNat / 256 := by
  rw [samePage, beq_iff_eq, ← UInt8.toNat_inj, highByte_toNat, highByte_toNat]

structure Meter where
  charged : Nat
  chargesPages : Bool
  broke : Bool

namespace Meter

def begin (meter : Meter) (opcode : Opcode) : Meter :=
  { meter with charged := 0, chargesPages := opcode.pagePenalty, broke := false }

def charge (meter : Meter) : Meter := { meter with charged := meter.charged + 1 }

def index (meter : Meter) (base : UInt16) (offset : UInt8) : Meter :=
  if meter.chargesPages && !samePage base (base + offset.toUInt16) then meter.charge else meter

end Meter

namespace Cpu

variable {M : Type} [Bus M]

/-- The address and the index that an operand of a mode is the sum of, if it is one. -/
def indexed? (cpu : Cpu M) : AddressingMode → Option (UInt16 × UInt8)
  | .absoluteX => some (cpu.operandWord, cpu.registers.x)
  | .absoluteY => some (cpu.operandWord, cpu.registers.y)
  | .indirectY => some (cpu.zeroPageWord cpu.operandByte, cpu.registers.y)
  | _ => none

def leavesPage (cpu : Cpu M) (mode : AddressingMode) : Bool :=
  (cpu.indexed? mode).any fun (base, index) =>
    base.toNat / 256 != (base.toNat + index.toNat) % 65536 / 256

def meterOperand (cpu : Cpu M) (mode : AddressingMode) (meter : Meter) : Meter :=
  match cpu.indexed? mode with
  | some (base, index) => meter.index base index
  | none => meter

def meterEffect (cpu : Cpu M) (opcode : Opcode) (meter : Meter) : Meter :=
  match opcode.operation.effect with
  | .load _ | .store _ | .jump => cpu.meterOperand opcode.mode meter
  | .modify _ =>
    if opcode.mode = .accumulator then meter else cpu.meterOperand opcode.mode meter
  | .branch taken =>
    let target := cpu.effectiveAddress opcode.mode
    if taken cpu.registers.status then
      if samePage (cpu.registers.pc + 2) target then meter.charge else meter.charge.charge
    else meter
  | .interrupt => { meter with broke := true }
  | .internal _ | .push _ | .pull _ | .call | .returnFromCall | .returnFromInterrupt => meter

/-- What the next step does, as it is metered in fields that hold something already. -/
def metered (cpu : Cpu M) (leftover : Meter) : Executed :=
  let meter := cpu.meterEffect cpu.nextOpcode (leftover.begin cpu.nextOpcode)
  { address := cpu.registers.pc
    code := Bus.read cpu.memory cpu.registers.pc
    cycles := cpu.nextOpcode.cycles + meter.charged
    isBreak := meter.broke }

variable (cpu : Cpu M)

theorem crossesPage_eq (mode : AddressingMode) : cpu.crossesPage mode = cpu.leavesPage mode := by
  have hsame (base : UInt16) (offset : UInt8) : (!samePage base (base + offset.toUInt16)) =
      (base.toNat / 256 != (base.toNat + offset.toNat) % 65536 / 256) := by
    rw [Bool.eq_iff_iff, Bool.not_eq_true', ← Bool.not_eq_true, samePage_iff, bne_iff_ne,
      UInt16.toNat_add, UInt8.toNat_toUInt16]
  cases mode with
  | absoluteX | absoluteY | indirectY => exact hsame _ _
  | _ => simp [crossesPage, effectiveAddress, indexOffset, leavesPage, indexed?, samePage]

theorem isLoad_of_pagePenalty (h : cpu.nextOpcode.pagePenalty = true) :
    cpu.nextOpcode.operation.effect.isLoad = true :=
  Opcode.isLoad_of_pagePenalty h

theorem extraCycles_eq :
    cpu.extraCycles cpu.nextOpcode =
      (if cpu.nextOpcode.pagePenalty && cpu.leavesPage cpu.nextOpcode.mode then 1 else 0) +
        if cpu.nextOpcode.operation.branchesOn cpu.registers.status then
          if samePage (cpu.registers.pc + 2) (cpu.effectiveAddress cpu.nextOpcode.mode) then 1 else 2
        else 0 := by
  rw [extraCycles, crossesPage_eq, Operation.branchesOn_eq]
  congr 1
  cases cpu.nextOpcode.operation.effect with
  | branch taken => simp [Effect.isBranch, Effect.transfersIn]
  | _ => rfl

theorem meterOperand_eq (mode : AddressingMode) (meter : Meter) :
    cpu.meterOperand mode meter =
      { meter with
        charged := meter.charged + if meter.chargesPages && cpu.crossesPage mode then 1 else 0 } := by
  have hindex (base : UInt16) (offset : UInt8) : meter.index base offset =
      { meter with
        charged := meter.charged +
          if meter.chargesPages && !samePage base (base + offset.toUInt16) then 1 else 0 } := by
    unfold Meter.index
    split <;> rfl
  cases mode with
  | absoluteX | absoluteY | indirectY => exact hindex _ _
  | _ => simp [meterOperand, indexed?, crossesPage_eq, leavesPage]

theorem broke_meterEffect (opcode : Opcode) (meter : Meter) :
    (cpu.meterEffect opcode meter).broke =
      (meter.broke || opcode.operation.effect.isInterrupt) := by
  unfold meterEffect
  cases opcode.operation.effect with
  | load _ | store _ | jump =>
    rw [meterOperand_eq]
    exact (Bool.or_false _).symm
  | modify _ =>
    rw [meterOperand_eq]
    dsimp only
    split <;> exact (Bool.or_false _).symm
  | branch taken =>
    dsimp only
    split
    · split <;> exact (Bool.or_false _).symm
    · exact (Bool.or_false _).symm
  | interrupt => exact (Bool.or_true _).symm
  | internal _ | push _ | pull _ | call | returnFromCall | returnFromInterrupt =>
    exact (Bool.or_false _).symm

theorem charged_meterEffect (leftover : Meter) :
    (cpu.meterEffect cpu.nextOpcode (leftover.begin cpu.nextOpcode)).charged =
      cpu.extraCycles cpu.nextOpcode := by
  have hpaged := cpu.isLoad_of_pagePenalty
  unfold meterEffect extraCycles
  rw [meterOperand_eq, Meter.begin]
  -- Only loads pay for an index, so it does not matter which other effects look up an operand.
  cases hpenalty : cpu.nextOpcode.pagePenalty with
  | true =>
    have hload := hpaged hpenalty
    cases heffect : cpu.nextOpcode.operation.effect with
    | load update => exact Nat.add_comm _ _
    | _ => simp [heffect, Effect.isLoad] at hload
  | false =>
    cases cpu.nextOpcode.operation.effect with
    | modify change =>
      dsimp only
      split <;> rfl
    | branch taken =>
      dsimp only [Bool.false_and]
      split
      · split <;> rfl
      · rfl
    | _ => rfl

/-- Whatever the fields held before, metering comes to what a step answers. -/
theorem metered_eq (leftover : Meter) : cpu.metered leftover = cpu.step.1 := by
  rw [metered, charged_meterEffect, broke_meterEffect, Operation.isInterrupt_effect, Meter.begin,
    Bool.false_or]
  rfl

theorem step_cycles_of_writesByte (h : cpu.nextOpcode.operation.writesByte = true) :
    cpu.step.1.cycles = cpu.nextOpcode.cycles := by
  obtain ⟨hload, hbranch⟩ := Operation.isLoad_of_writesByte h
  have hfree : cpu.nextOpcode.pagePenalty = false := by
    rw [← Bool.not_eq_true]
    intro hpenalty
    rw [cpu.isLoad_of_pagePenalty hpenalty] at hload
    cases hload
  have hextra := cpu.extraCycles_le cpu.nextOpcode
  rw [hfree, hbranch] at hextra
  exact congrArg (cpu.nextOpcode.cycles + ·) (Nat.le_zero.mp hextra)

theorem step_pc_of_branchesOn
    (h : cpu.nextOpcode.operation.branchesOn cpu.registers.status = true) :
    cpu.step.2.registers.pc = cpu.effectiveAddress cpu.nextOpcode.mode := by
  rw [Operation.branchesOn_eq, Bool.and_eq_true] at h
  exact step_pc_of_transfersIn rfl h.2

/-- A step takes the cycles of the opcode table, one more for an index that leads to another page if
the table says so, and for a branch that is taken one more, or two more if it leads to another page
than that of the instruction behind it. What the fields of a meter held before does not matter. -/
theorem step_cost (leftover : Meter) :
    cpu.metered leftover = cpu.step.1 ∧
      cpu.step.1.cycles = cpu.nextOpcode.cycles +
        (if cpu.nextOpcode.pagePenalty && cpu.leavesPage cpu.nextOpcode.mode then 1 else 0) +
        (if cpu.nextOpcode.operation.branchesOn cpu.registers.status then
          1 + if (cpu.registers.pc.toNat + 2) % 65536 / 256 = cpu.step.2.registers.pc.toNat / 256
            then 0 else 1
        else 0) ∧
      cpu.step.2.cycles.toNat = (cpu.cycles.toNat + cpu.step.1.cycles) % UInt64.size ∧
      (cpu.nextOpcode.operation.writesByte = true → cpu.step.1.cycles = cpu.nextOpcode.cycles) ∧
      2 ≤ cpu.step.1.cycles ∧ cpu.step.1.cycles ≤ 7 := by
  refine ⟨cpu.metered_eq leftover, ?_, ?_, cpu.step_cycles_of_writesByte, cpu.step_cycles_pos,
    cpu.step_cycles_le⟩
  · change cpu.nextOpcode.cycles + cpu.extraCycles cpu.nextOpcode = _
    rw [extraCycles_eq, Nat.add_assoc]
    congr 2
    by_cases hbranch : cpu.nextOpcode.operation.branchesOn cpu.registers.status = true
    · rw [if_pos hbranch, if_pos hbranch, cpu.step_pc_of_branchesOn hbranch]
      simp only [samePage_iff, UInt16.toNat_add, UInt16.reduceToNat]
      split <;> rfl
    · rw [if_neg hbranch, if_neg hbranch]
  · rw [step_cycles, UInt64.toNat_add, UInt64.toNat_ofNat', Nat.add_mod_mod]

/-- At 0x10 a load and at 0x12 a store through a pointer to the last byte of memory, with an index
that leads behind it; at 0 a branch back to the end of memory. -/
def crossing (pc : UInt16) : Cpu Memory where
  registers := { y := 1, pc }
  memory := [(0x00, 0xD0), (0x01, 0xFC), (0x10, 0xB1), (0x11, 0x20), (0x12, 0x91), (0x13, 0x20),
    (0x20, 0xFF), (0x21, 0xFF)].foldl
      (fun memory cell => memory.write cell.1 cell.2) Memory.zero

theorem step_cost_crossing :
    (crossing 0x10).step.1.cycles = 5 + 1 ∧
      ((crossing 0x12).nextOpcode.operation.writesByte = true ∧
        (crossing 0x12).step.1.cycles = 6) ∧
      (crossing 0).metered ⟨9, true, true⟩ = (crossing 0).step.1 ∧
      (crossing 0).step.1.cycles = 2 + 2 := by
  have hwrites : (crossing 0x12).nextOpcode.operation.writesByte = true := by decide +kernel
  obtain ⟨-, hload, -⟩ := step_cost (crossing 0x10) ⟨0, false, false⟩
  obtain ⟨-, -, -, hstore, -⟩ := step_cost (crossing 0x12) ⟨1, true, false⟩
  obtain ⟨hmetered, hbranch, -⟩ := step_cost (crossing 0) ⟨9, true, true⟩
  exact ⟨hload.trans (by decide +kernel), ⟨hwrites, (hstore hwrites).trans (by decide +kernel)⟩,
    hmetered, hbranch.trans (by decide +kernel)⟩

end Cpu
end Nmos6502
