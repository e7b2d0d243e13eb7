import Nmos6502.Proofs.Block
import Nmos6502.Proofs.ByteShift
import Nmos6502.Proofs.Cpu.ProgramCounter
import Nmos6502.Proofs.Cpu.StepFrame
import Nmos6502.Proofs.Cpu.StraightLine

/-!
# Shifts of several bytes

Straight-line code that shifts a block of memory of any size, byte after byte, with the carry handed
from each byte to the next. Main statements: `shifts_absoluteCode`, by which the processor follows the
chain of carries, and `multi_byte_shift`.
-/

set_option autoImplicit false

namespace Nmos6502

open Arithmetic

def Opcode.ShiftsBy (f : Bool → UInt8 → UInt8 × Bool) (opcode : Opcode) : Prop :=
  opcode.mode = .absolute ∧ opcode.operation.effect = .shift f

theorem shiftsBy_asl : (Opcode.ofByte 0x0E).ShiftsBy fun _ => shiftLeft false := ⟨rfl, rfl⟩

theorem shiftsBy_rol : (Opcode.ofByte 0x2E).ShiftsBy shiftLeft := ⟨rfl, rfl⟩

theorem shiftsBy_lsr : (Opcode.ofByte 0x4E).ShiftsBy fun _ => shiftRight false := ⟨rfl, rfl⟩

theorem shiftsBy_ror : (Opcode.ofByte 0x6E).ShiftsBy shiftRight := ⟨rfl, rfl⟩

def absoluteCode (code : UInt8) (places : List UInt16) : List UInt8 :=
  places.flatMap fun place => [code, lowByte place, highByte place]

def chainCode (first other : UInt8) (places : List UInt16) : List UInt8 :=
  absoluteCode first (places.take 1) ++ absoluteCode other (places.drop 1)

theorem length_absoluteCode (code : UInt8) (places : List UInt16) :
    (absoluteCode code places).length = 3 * places.length := by
  induction places with
  | nil => rfl
  | cons place rest ih =>
    rw [absoluteCode, List.flatMap_cons, List.length_append, ← absoluteCode, ih, List.length_cons,
      List.length_cons, List.length_cons, List.length_cons, List.length_nil]
    omega

theorem Bus.holds_congr {M : Type} [Bus M] {memory other : M} {address : UInt16}
    {bytes : List UInt8}
    (hsame : ∀ place ∈ Memory.block address bytes.length, read other place = read memory place)
    (h : Holds memory address bytes) : Holds other address bytes := by
  induction bytes generalizing address with
  | nil => trivial
  | cons b rest ih =>
    have hblock : Memory.block address (rest.length + 1) =
        address :: Memory.block (address + 1) rest.length := by
      rw [Nat.add_comm, Memory.block_add]
      simp [Memory.block]
    rw [List.length_cons, hblock] at hsame
    obtain ⟨hfirst, hrest⟩ := List.forall_mem_cons.mp hsame
    exact ⟨hfirst.trans h.1, ih hrest h.2⟩

namespace Cpu

section
variable {M : Type} [Bus M]

/-- Whether code lies at the program counter, and none of it at some places. -/
def HoldsApart (cpu : Cpu M) (code : List UInt8) (places : List UInt16) : Prop :=
  Bus.Holds cpu.memory cpu.registers.pc code ∧
    ∀ place ∈ places, place ∉ Memory.block cpu.registers.pc code.length

instance (cpu : Cpu M) (code : List UInt8) (places : List UInt16) :
    Decidable (cpu.HoldsApart code places) :=
  -- by the places, not by all addresses
  have := List.decidableBAll (· ∉ Memory.block cpu.registers.pc code.length) places
  inferInstanceAs (Decidable (_ ∧ _))

variable {cpu : Cpu M} {first second : List UInt8} {places : List UInt16}

theorem HoldsApart.front (h : cpu.HoldsApart (first ++ second) places) :
    cpu.HoldsApart first places := by
  refine ⟨((Bus.holds_append ..).mp h.1).1, fun place hplace hin => h.2 place hplace ?_⟩
  rw [List.length_append, Memory.block_add]
  exact List.mem_append_left _ hin

/-- The rest of the code is there when its front has been executed and has changed nothing but the
places. -/
theorem HoldsApart.back {other : Cpu M} (h : cpu.HoldsApart (first ++ second) places)
    (hpc : other.registers.pc = cpu.registers.pc + UInt16.ofNat first.length)
    (hsame : ∀ place, place ∉ places →
      Bus.read other.memory place = Bus.read cpu.memory place) :
    other.HoldsApart second places := by
  obtain ⟨hholds, hapart⟩ := h
  rw [List.length_append, Memory.block_add, ← hpc] at hapart
  have hbehind : ∀ place ∈ places,
      place ∉ Memory.block other.registers.pc second.length :=
    fun place hplace hin => hapart place hplace (List.mem_append_right _ hin)
  refine ⟨Bus.holds_congr (fun place hin => hsame place fun hplace => hbehind place hplace hin) ?_,
    hbehind⟩
  rw [hpc]
  exact ((Bus.holds_append ..).mp hholds).2

theorem step_shift {code : UInt8} {place : UInt16} {f : Bool → UInt8 → UInt8 × Bool}
    (hshifts : (Opcode.ofByte code).ShiftsBy f)
    (hholds : Bus.Holds cpu.memory cpu.registers.pc [code, lowByte place, highByte place]) :
    let shifted := f cpu.registers.status.carry (Bus.read cpu.memory place)
    let status := { cpu.registers.status with carry := shifted.2 }.withResult shifted.1
    cpu.step.2.registers = { cpu.registers with status, pc := cpu.registers.pc + 3 } ∧
      cpu.step.2.memory = Bus.write cpu.memory place shifted.1 := by
  obtain ⟨hcode, hlow, hhigh, -⟩ := hholds
  have htarget : cpu.effectiveAddress .absolute = place := by
    rw [effectiveAddress_absolute, hlow, ← word_lowByte_highByte place, ← hhigh, UInt16.add_assoc]
    simp
  have hopcode : cpu.nextOpcode = Opcode.ofByte code := congrArg Opcode.ofByte hcode
  have hfetches : (Opcode.ofByte code).operation.effect.fetches (Opcode.ofByte code).mode = 2 := by
    rw [hshifts.2, hshifts.1]
    rfl
  have hstep :
      let shifted := f cpu.registers.status.carry
        (Bus.read cpu.memory (cpu.effectiveAddress .absolute))
      let status := { cpu.registers.status with carry := shifted.2 }.withResult shifted.1
      cpu.step.2.registers = { cpu.registers with status, pc := cpu.registers.pc + 3 } ∧
        cpu.step.2.memory =
          Bus.write cpu.memory (cpu.effectiveAddress .absolute) shifted.1 := by
    rw [step_eq_perform, hopcode, perform, behind_eq hfetches, hshifts.2, Effect.shift, hshifts.1]
    exact ⟨rfl, rfl⟩
  rw [htarget] at hstep
  exact hstep

end

/-- How a processor changes by shifting the bytes at some places one after the other, from a carry
on. -/
structure Shifts (f : Bool → UInt8 → UInt8 × Bool) (carry : Bool) (places : List UInt16)
    (before after : Cpu Memory) : Prop where
  shifts : shiftAll f carry (places.map before.memory.read) =
    (places.map after.memory.read, after.registers.status.carry)
  pc : after.registers.pc = before.registers.pc + UInt16.ofNat (3 * places.length)
  frame : SameOutside ⟨[], [.negative, .zero, .carry]⟩ places before after

namespace Shifts

variable {f : Bool → UInt8 → UInt8 × Bool} {carry : Bool} {before middle after : Cpu Memory}
  {first second : List UInt16}

theorem nil : Shifts f before.registers.status.carry [] before before where
  shifts := rfl
  pc := (UInt16.add_zero _).symm
  frame := ⟨Registers.SameOutside.refl _ _, fun _ _ => rfl⟩

theorem append (hfirst : Shifts f carry first before middle)
    (hsecond : Shifts f middle.registers.status.carry second middle after)
    (hapart : ∀ place ∈ first, place ∉ second) :
    Shifts f carry (first ++ second) before after where
  shifts := by
    have hkept : first.map after.memory.read = first.map middle.memory.read :=
      List.map_congr_left fun place hin => hsecond.frame.memory place (hapart place hin)
    have hwaits : second.map middle.memory.read = second.map before.memory.read :=
      List.map_congr_left fun place hin =>
        hfirst.frame.memory place fun hin' => hapart place hin' hin
    rw [List.map_append, shiftAll_append, hfirst.shifts, ← hwaits, hsecond.shifts, List.map_append,
      hkept]
  pc := by
    rw [hsecond.pc, hfirst.pc, List.length_append, Nat.mul_add, UInt16.ofNat_add, UInt16.add_assoc]
  frame := (hfirst.frame.mono (List.subset_append_left ..)).trans
    (hsecond.frame.mono (List.subset_append_right ..))

end Shifts

section
variable {cpu : Cpu Memory} {code : UInt8} {f g : Bool → UInt8 → UInt8 × Bool}

theorem shifts_step {place : UInt16} {carry : Bool} (hshifts : (Opcode.ofByte code).ShiftsBy g)
    (hcarry : g cpu.registers.status.carry = f carry)
    (hholds : Bus.Holds cpu.memory cpu.registers.pc [code, lowByte place, highByte place]) :
    Shifts f carry [place] cpu cpu.step.2 := by
  obtain ⟨hregisters, hmemory⟩ := step_shift hshifts hholds
  have hflags : Status.SameOutside [.negative, .zero, .carry] cpu.registers.status
      cpu.step.2.registers.status := by
    rw [hregisters]
    exact (Effect.within_shift g .absolute).2 _ _
  rw [hcarry] at hregisters hmemory
  refine ⟨?_, by rw [hregisters]; rfl, ⟨fun register _ => ?_, hflags⟩, fun address hout => ?_⟩
  · have hresult : cpu.step.2.memory.read place = (f carry (cpu.memory.read place)).1 := by
      rw [hmemory]
      exact Memory.read_write_self _ _ _
    rw [List.map_singleton, List.map_singleton, hresult, hregisters]
    rfl
  · rw [hregisters]
    cases register <;> rfl
  · rw [hmemory]
    exact Memory.read_write_other _ _ (List.ne_of_not_mem_cons hout)

theorem shifts_front {place : UInt16} {carry : Bool} {rest : List UInt8} {apart : List UInt16}
    (hshifts : (Opcode.ofByte code).ShiftsBy g) (hcarry : g cpu.registers.status.carry = f carry)
    (hin : place ∈ apart)
    (hholds : cpu.HoldsApart ([code, lowByte place, highByte place] ++ rest) apart) :
    Shifts f carry [place] cpu cpu.step.2 ∧ cpu.step.2.HoldsApart rest apart := by
  have hfirst := shifts_step hshifts hcarry hholds.front.1
  refine ⟨hfirst, hholds.back hfirst.pc fun address hout => hfirst.frame.memory address fun h => ?_⟩
  exact hout (List.mem_singleton.mp h ▸ hin)

/-- The processor follows the chain of carries through the places that the code works on. -/
theorem shifts_absoluteCode (hshifts : (Opcode.ofByte code).ShiftsBy f) {places apart : List UInt16}
    (hnodup : places.Nodup) (hsub : places ⊆ apart)
    (hholds : cpu.HoldsApart (absoluteCode code places) apart) :
    Shifts f cpu.registers.status.carry places cpu (cpu.after places.length) := by
  induction places generalizing cpu with
  | nil => exact .nil
  | cons place rest ih =>
    obtain ⟨hplace, hrest⟩ := List.nodup_cons.mp hnodup
    obtain ⟨hin, hsub⟩ := List.cons_subset.mp hsub
    obtain ⟨hfirst, hbehind⟩ := shifts_front hshifts rfl hin hholds
    exact hfirst.append (ih hrest hsub hbehind) (by simpa using hplace)

theorem shifts_chainCode {first other : UInt8}
    (hfirst : (Opcode.ofByte first).ShiftsBy fun _ => f false)
    (hother : (Opcode.ofByte other).ShiftsBy f) {places apart : List UInt16} (hne : places ≠ [])
    (hnodup : places.Nodup) (hsub : places ⊆ apart)
    (hholds : cpu.HoldsApart (chainCode first other places) apart) :
    Shifts f false places cpu (cpu.after places.length) := by
  obtain ⟨place, rest, rfl⟩ := List.exists_cons_of_ne_nil hne
  obtain ⟨hplace, hrest⟩ := List.nodup_cons.mp hnodup
  obtain ⟨hin, hsub⟩ := List.cons_subset.mp hsub
  obtain ⟨hstart, hbehind⟩ := shifts_front hfirst rfl hin hholds
  exact hstart.append (shifts_absoluteCode hother hrest hsub hbehind) (by simpa using hplace)

end

section
variable {before after : Cpu Memory} {carry : Bool} {address : UInt16} {n : Nat}

theorem Shifts.doubles (h : Shifts shiftLeft carry (Memory.block address n) before after) :
    littleEndian (after.memory.readBytes address n) + 256 ^ n * after.registers.status.carry.toNat =
      2 * littleEndian (before.memory.readBytes address n) + carry.toNat := by
  have hvalue := littleEndian_shiftLeft carry (before.memory.readBytes address n)
  rwa [Memory.readBytes_eq_map, h.shifts, List.length_map, Memory.length_block,
    ← Memory.readBytes_eq_map, ← Memory.readBytes_eq_map] at hvalue

theorem Shifts.halves
    (h : Shifts shiftRight carry (Memory.block address n).reverse before after) :
    2 * littleEndian (after.memory.readBytes address n) + after.registers.status.carry.toNat =
      littleEndian (before.memory.readBytes address n) + 256 ^ n * carry.toNat := by
  have hvalue := littleEndian_shiftRight carry (before.memory.readBytes address n)
  rwa [Memory.readBytes_eq_map, ← List.map_reverse, h.shifts, ← List.map_reverse,
    List.reverse_reverse, List.length_map, Memory.length_block, ← Memory.readBytes_eq_map,
    ← Memory.readBytes_eq_map] at hvalue

theorem Shifts.carry_highest (hpos : 0 < n)
    (h : Shifts shiftLeft carry (Memory.block address n) before after) :
    after.registers.status.carry =
      Status.isNegative (before.memory.read (address + UInt16.ofNat (n - 1))) := by
  obtain ⟨n, rfl⟩ := Nat.exists_eq_add_one_of_ne_zero (Nat.ne_of_gt hpos)
  have hcarry := shiftAll_shiftLeft_carry carry
    ((Memory.block address (n + 1)).map before.memory.read)
  rw [h.shifts, Memory.block_add] at hcarry
  simpa [Memory.block] using hcarry

end

/-- Code that shifts the bytes of a block one after the other (`ASL`, then `ROL`, upwards; `LSR`, then
`ROR`, downwards) shifts the number in it, to the left with the highest bit in the carry at the end,
to the right with the lowest; rotating it to the left and back again leaves it as it was, with the
carry. Nothing else changes but the flags that follow results. -/
theorem multi_byte_shift (cpu : Cpu Memory) (address : UInt16) (n : Nat) (hpos : 0 < n)
    (hfits : n ≤ 65536) :
    let up := Memory.block address n
    let down := up.reverse
    let number := littleEndian (cpu.memory.readBytes address n)
    let changed : Footprint := ⟨[], [.negative, .zero, .carry]⟩
    (cpu.HoldsApart (chainCode 0x0E 0x2E up) up →
      let ended := cpu.after n
      littleEndian (ended.memory.readBytes address n) = 2 * number % 256 ^ n ∧
        ended.registers.status.carry =
          Status.isNegative (cpu.memory.read (address + UInt16.ofNat (n - 1))) ∧
        SameOutside changed up cpu ended) ∧
    (cpu.HoldsApart (chainCode 0x4E 0x6E down) up →
      let ended := cpu.after n
      littleEndian (ended.memory.readBytes address n) = number / 2 ∧
        ended.registers.status.carry.toNat = number % 2 ∧ SameOutside changed up cpu ended) ∧
    (cpu.HoldsApart (absoluteCode 0x2E up ++ absoluteCode 0x6E down) up →
      let ended := cpu.after (2 * n)
      ended.memory.readBytes address n = cpu.memory.readBytes address n ∧
        ended.registers.status.carry = cpu.registers.status.carry ∧
        SameOutside changed up cpu ended) := by
  intro up down number changed
  have hnodup : up.Nodup := Memory.nodup_block address hfits
  have hdown : down ⊆ up := fun _ => List.mem_reverse.mp
  have hlength : up.length = n := Memory.length_block address n
  have hlength' : down.length = n := List.length_reverse.trans hlength
  have hne : up ≠ [] := List.ne_nil_of_length_pos (hlength ▸ hpos)
  refine ⟨fun hholds => ?left, fun hholds => ?right, fun hholds => ?back⟩
  case left =>
    have hshifts := shifts_chainCode shiftsBy_asl shiftsBy_rol hne hnodup (List.Subset.refl _) hholds
    rw [hlength] at hshifts
    have hvalue : littleEndian ((cpu.after n).memory.readBytes address n) +
        256 ^ n * (cpu.after n).registers.status.carry.toNat = 2 * number := hshifts.doubles
    have hlt := littleEndian_lt ((cpu.after n).memory.readBytes address n)
    rw [Memory.length_readBytes] at hlt
    refine ⟨?_, hshifts.carry_highest hpos, hshifts.frame⟩
    rw [← hvalue, Nat.add_mul_mod_self_left, Nat.mod_eq_of_lt hlt]
  case right =>
    have hshifts := shifts_chainCode shiftsBy_lsr shiftsBy_ror (List.reverse_ne_nil_iff.mpr hne)
      (List.nodup_reverse.mpr hnodup) hdown hholds
    rw [hlength'] at hshifts
    have hvalue : 2 * littleEndian ((cpu.after n).memory.readBytes address n) +
        (cpu.after n).registers.status.carry.toNat = number := hshifts.halves
    have hcarry := (cpu.after n).registers.status.carry.toNat_le
    exact ⟨by omega, by omega, hshifts.frame.mono hdown⟩
  case back =>
    have hleft := shifts_absoluteCode shiftsBy_rol hnodup (List.Subset.refl _) hholds.front
    rw [hlength] at hleft
    have hbehind : (cpu.after n).HoldsApart (absoluteCode 0x6E down) up :=
      hholds.back (by rw [hleft.pc, length_absoluteCode]) hleft.frame.memory
    have hright := shifts_absoluteCode shiftsBy_ror (List.nodup_reverse.mpr hnodup) hdown hbehind
    rw [hlength', ← after_add, ← Nat.two_mul] at hright
    have hundone := shiftRight_shiftLeft cpu.registers.status.carry (up.map cpu.memory.read)
    rw [hleft.shifts, ← List.map_reverse, hright.shifts, List.map_reverse, Prod.mk.injEq,
      List.reverse_inj] at hundone
    refine ⟨?_, hundone.2, hleft.frame.trans (hright.frame.mono hdown)⟩
    rw [Memory.readBytes_eq_map, Memory.readBytes_eq_map]
    exact hundone.1

/-- A processor with the number 0x80FF01 from address 0 on, code behind it, and a set carry. -/
def shifting (code : List UInt8) : Cpu Memory where
  registers := { status := { carry := true }, pc := 3 }
  memory := ⟨⟨((0x01 :: 0xFF :: 0x80 :: code ++ List.replicate 65536 0).take 65536).toArray,
    by rw [List.size_toArray, List.length_take, List.length_append, List.length_replicate]; omega⟩⟩

theorem multi_byte_shift_three_bytes :
    let left := shifting (chainCode 0x0E 0x2E [0, 1, 2])
    let right := shifting (chainCode 0x4E 0x6E [2, 1, 0])
    let back := shifting (absoluteCode 0x2E [0, 1, 2] ++ absoluteCode 0x6E [2, 1, 0])
    (littleEndian ((left.after 3).memory.readBytes 0 3) = 2 * 0x80FF01 % 256 ^ 3 ∧
      (left.after 3).registers.status.carry = true) ∧
    (littleEndian ((right.after 3).memory.readBytes 0 3) = 0x80FF01 / 2 ∧
      (right.after 3).registers.status.carry.toNat = 1) ∧
    (back.after (2 * 3)).memory.readBytes 0 3 = [0x01, 0xFF, 0x80] ∧
      (back.after (2 * 3)).registers.status.carry = true := by
  intro left right back
  have hnumber : littleEndian (left.memory.readBytes 0 3) = 0x80FF01 ∧
      littleEndian (right.memory.readBytes 0 3) = 0x80FF01 := by
    decide
  have hbytes : back.memory.readBytes 0 3 = [0x01, 0xFF, 0x80] := by decide
  have hset : back.registers.status.carry = true := rfl
  have htop : Status.isNegative (left.memory.read (0 + UInt16.ofNat (3 - 1))) = true := by
    decide
  obtain ⟨hleft, -, -⟩ := multi_byte_shift left 0 3 (by decide) (by decide)
  obtain ⟨-, hright, -⟩ := multi_byte_shift right 0 3 (by decide) (by decide)
  obtain ⟨-, -, hback⟩ := multi_byte_shift back 0 3 (by decide) (by decide)
  obtain ⟨hdoubled, hhighest, -⟩ := hleft (by decide)
  obtain ⟨hhalved, hlowest, -⟩ := hright (by decide)
  obtain ⟨hsame, hcarry, -⟩ := hback (by decide)
  rw [hnumber.1] at hdoubled
  rw [hnumber.2] at hhalved hlowest
  exact ⟨⟨hdoubled, hhighest.trans htop⟩, ⟨hhalved, hlowest⟩, hsame.trans hbytes, hcarry.trans hset⟩

end Cpu
end Nmos6502
