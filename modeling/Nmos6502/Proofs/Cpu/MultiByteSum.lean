import Nmos6502.Memory
import Nmos6502.Proofs.CarryChain
import Nmos6502.Proofs.Cpu.StraightLine

set_option autoImplicit false

namespace Nmos6502

open Arithmetic

/-- Whether an instruction gives the accumulator and the byte behind its opcode to a function of the
decimal flag, of these two and of the carry. -/
def Opcode.SumsBy (f : Bool → UInt8 → UInt8 → Bool → Sum) (opcode : Opcode) : Prop :=
  opcode.mode = .immediate ∧
    opcode.operation.effect = .load fun r b => r.setSum (f r.status.decimal r.a b r.status.carry)

/-- The bytes of code that loads each byte of one number and combines it with that of another by the
instruction with the given opcode byte. -/
def sumCode (code : UInt8) (pairs : List (UInt8 × UInt8)) : List UInt8 :=
  pairs.flatMap fun (x, y) => [0xA9, x, code, y]

def adder : Bool → UInt8 → UInt8 → Bool → Sum
  | false => add
  | true => addDecimal

def subtracter : Bool → UInt8 → UInt8 → Bool → Sum
  | false => subtract
  | true => subtractDecimal

theorem sumsBy_adc : (Opcode.ofByte 0x69).SumsBy adder := by
  have hopcode : Opcode.ofByte 0x69 = ⟨.adc, .immediate, 2, false⟩ := by decide
  have hadd : Registers.add =
      fun r b => r.setSum (adder r.status.decimal r.a b r.status.carry) := by
    funext r b
    cases h : r.status.decimal <;> rw [Registers.add, h] <;> rfl
  rw [hopcode]
  exact ⟨rfl, congrArg _ hadd⟩

theorem sumsBy_sbc : (Opcode.ofByte 0xE9).SumsBy subtracter := by
  have hopcode : Opcode.ofByte 0xE9 = ⟨.sbc, .immediate, 2, false⟩ := by decide
  have hsubtract : Registers.subtract =
      fun r b => r.setSum (subtracter r.status.decimal r.a b r.status.carry) := by
    funext r b
    cases h : r.status.decimal <;> rw [Registers.subtract, h] <;> rfl
  rw [hopcode]
  exact ⟨rfl, congrArg _ hsubtract⟩

namespace Cpu

variable {M : Type} [Bus M]

/-- The accumulator after every second of the next `2 * n` steps. -/
def accumulated (cpu : Cpu M) (n : Nat) : List UInt8 :=
  (List.range n).map fun i => (cpu.after (2 * i + 2)).registers.a

theorem accumulated_succ (cpu : Cpu M) (n : Nat) :
    cpu.accumulated (n + 1) = (cpu.after 2).registers.a :: (cpu.after 2).accumulated n := by
  rw [accumulated, List.range_succ_eq_map, List.map_cons, List.map_map]
  rfl

variable {cpu : Cpu M} {code x y : UInt8} {f : Bool → UInt8 → UInt8 → Bool → Sum}

theorem after_loadSum (hsums : (Opcode.ofByte code).SumsBy f)
    (hholds : Bus.Holds cpu.memory cpu.registers.pc [0xA9, x, code, y]) :
    let sum := f cpu.registers.status.decimal x y cpu.registers.status.carry
    (cpu.after 2).registers =
        { (cpu.registers.setA x).setSum sum with pc := cpu.registers.pc + 2 + 2 } ∧
      (cpu.after 2).memory = cpu.memory := by
  obtain ⟨hload, hsum⟩ :=
    (Bus.holds_append cpu.memory cpu.registers.pc [0xA9, x] [code, y]).mp hholds
  have hopcode : Opcode.ofByte 0xA9 = ⟨.lda, .immediate, 2, false⟩ := by decide
  have heffect : (Opcode.ofByte 0xA9).operation.effect = .load Registers.setA := by
    rw [hopcode]
    rfl
  obtain ⟨hregisters, hmemory⟩ := step_immediate hload (by rw [hopcode]) heffect
  have hbehind : Bus.Holds cpu.step.2.memory cpu.step.2.registers.pc [code, y] := by
    rw [hmemory, hregisters]
    exact hsum
  obtain ⟨hregisters', hmemory'⟩ := step_immediate hbehind hsums.1 hsums.2
  rw [hregisters] at hregisters'
  exact ⟨hregisters', hmemory'.trans hmemory⟩

/-- The code hands the carry from byte to byte, and leaves the flags of the highest one. -/
theorem after_sumCode (hsums : (Opcode.ofByte code).SumsBy f) {pairs : List (UInt8 × UInt8)}
    (hholds : Bus.Holds cpu.memory cpu.registers.pc (sumCode code pairs)) :
    let sums := combine (f cpu.registers.status.decimal) cpu.registers.status.carry pairs
    let ended := (cpu.after (2 * pairs.length)).registers.status
    cpu.accumulated pairs.length = sums.map Sum.result ∧
      ended.carry = (sums.map Sum.carry).getLastD cpu.registers.status.carry ∧
      ended.overflow = (sums.map Sum.overflow).getLastD cpu.registers.status.overflow := by
  induction pairs generalizing cpu with
  | nil => exact ⟨rfl, rfl, rfl⟩
  | cons pair rest ih =>
    obtain ⟨hfirst, hrest⟩ := (Bus.holds_append cpu.memory cpu.registers.pc
      [0xA9, pair.1, code, pair.2] (sumCode code rest)).mp hholds
    obtain ⟨hregisters, hmemory⟩ := after_loadSum hsums hfirst
    have hbehind : Bus.Holds (cpu.after 2).memory (cpu.after 2).registers.pc
        (sumCode code rest) := by
      rw [hmemory, hregisters, UInt16.add_assoc]
      exact hrest
    -- The rest of the code begins with the carry that the first pair leaves.
    obtain ⟨hresults, hcarry, hoverflow⟩ := ih hbehind
    have hsteps : 2 * (pair :: rest).length = 2 + 2 * rest.length := by
      rw [List.length_cons]
      omega
    dsimp only at hregisters hresults hcarry hoverflow ⊢
    rw [hsteps, after_add, List.length_cons, accumulated_succ, hresults, hcarry, hoverflow,
      hregisters, combine, List.map_cons, List.map_cons, List.map_cons, List.getLastD_cons,
      List.getLastD_cons]
    exact ⟨rfl, rfl, rfl⟩

/-- Code that adds or subtracts byte after byte computes the sum or difference of the whole numbers,
up to the carry it leaves: of binary numbers, signed or not, and of decimal ones. -/
theorem multi_byte_sum (cpu : Cpu M) (pairs : List (UInt8 × UInt8)) (hne : pairs ≠ []) :
    let n := pairs.length
    let xs := pairs.map Prod.fst
    let ys := pairs.map Prod.snd
    let before := cpu.registers.status
    let results := cpu.accumulated n
    let ended := (cpu.after (2 * n)).registers.status
    (Bus.Holds cpu.memory cpu.registers.pc (sumCode 0x69 pairs) →
      (before.decimal = false →
        littleEndian results + 256 ^ n * ended.carry.toNat =
            littleEndian xs + littleEndian ys + before.carry.toNat ∧
          (ended.overflow = true ↔
            ¬ FitsSigned n
              (signedLittleEndian xs + signedLittleEndian ys + before.carry.toNat))) ∧
      (before.decimal = true → (∀ pair ∈ pairs, IsDecimal pair.1 ∧ IsDecimal pair.2) →
        (∀ b ∈ results, IsDecimal b) ∧
          decimalNumber results + 100 ^ n * ended.carry.toNat =
            decimalNumber xs + decimalNumber ys + before.carry.toNat)) ∧
    (Bus.Holds cpu.memory cpu.registers.pc (sumCode 0xE9 pairs) →
      (before.decimal = false →
        (littleEndian xs : Int) - littleEndian ys - (1 - before.carry.toNat) =
            littleEndian results - (1 - ended.carry.toNat) * 256 ^ n ∧
          (ended.overflow = true ↔
            ¬ FitsSigned n
              (signedLittleEndian xs - signedLittleEndian ys - (1 - before.carry.toNat)))) ∧
      (before.decimal = true → (∀ pair ∈ pairs, IsDecimal pair.1 ∧ IsDecimal pair.2) →
        (∀ b ∈ results, IsDecimal b) ∧
          (decimalNumber xs : Int) - decimalNumber ys - (1 - before.carry.toNat) =
            decimalNumber results - (1 - ended.carry.toNat) * 100 ^ n)) := by
  refine ⟨fun hholds => ?sums, fun hholds => ?differences⟩
  case sums =>
    obtain ⟨hresults, hcarry, hoverflow⟩ := after_sumCode sumsBy_adc hholds
    rw [hresults, hcarry, hoverflow]
    refine ⟨fun hdecimal => ?binary, fun hdecimal hpairs => ?decimal⟩
    case binary =>
      rw [hdecimal]
      exact ⟨littleEndian_combine_add _ _, overflow_combine_add_iff _ _ _ hne⟩
    case decimal =>
      rw [hdecimal]
      exact ⟨List.forall_mem_map.mpr (splits_addDecimal.valid_combine _ hpairs),
        decimalNumber_combine_add _ hpairs⟩
  case differences =>
    obtain ⟨hresults, hcarry, hoverflow⟩ := after_sumCode sumsBy_sbc hholds
    rw [hresults, hcarry, hoverflow]
    refine ⟨fun hdecimal => ?binary, fun hdecimal hpairs => ?decimal⟩
    case binary =>
      rw [hdecimal]
      exact ⟨littleEndian_combine_subtract _ _, overflow_combine_subtract_iff _ _ _ hne⟩
    case decimal =>
      rw [hdecimal]
      exact ⟨List.forall_mem_map.mpr (splits_subtractDecimal.valid_combine _ hpairs),
        decimalNumber_combine_subtract _ hpairs⟩

def summing (code : UInt8) (decimal : Bool) (pairs : List (UInt8 × UInt8)) : Cpu Memory where
  registers := { status := { decimal } }
  memory := (sumCode code pairs).zipIdx.foldl
    (fun memory cell => memory.write (UInt16.ofNat cell.2) cell.1) Memory.zero

theorem multi_byte_sum_two_bytes :
    let sum := summing 0x69 false [(0xFF, 0x01), (0x7F, 0x00)]
    let decimalSum := summing 0x69 true [(0x99, 0x01), (0x99, 0x00)]
    let difference := summing 0xE9 false [(0x00, 0x00), (0x80, 0x00)]
    let decimalDifference := summing 0xE9 true [(0x00, 0x00), (0x00, 0x10)]
    (littleEndian (sum.accumulated 2) + 256 ^ 2 * (sum.after 4).registers.status.carry.toNat =
        0x8000 ∧ (sum.after 4).registers.status.overflow = true) ∧
      decimalNumber (decimalSum.accumulated 2) +
        100 ^ 2 * (decimalSum.after 4).registers.status.carry.toNat = 9999 + 1 ∧
      (0x8000 - 1 = (littleEndian (difference.accumulated 2) : Int) -
          (1 - (difference.after 4).registers.status.carry.toNat) * 256 ^ 2 ∧
        (difference.after 4).registers.status.overflow = true) ∧
      -1001 = (decimalNumber (decimalDifference.accumulated 2) : Int) -
        (1 - (decimalDifference.after 4).registers.status.carry.toNat) * 100 ^ 2 := by
  have hsum := (multi_byte_sum (summing 0x69 false [(0xFF, 0x01), (0x7F, 0x00)])
    [(0xFF, 0x01), (0x7F, 0x00)] (by decide)).1 (by decide +kernel)
  have hdecimalSum := (multi_byte_sum (summing 0x69 true [(0x99, 0x01), (0x99, 0x00)])
    [(0x99, 0x01), (0x99, 0x00)] (by decide)).1 (by decide +kernel)
  have hdifference := (multi_byte_sum (summing 0xE9 false [(0x00, 0x00), (0x80, 0x00)])
    [(0x00, 0x00), (0x80, 0x00)] (by decide)).2 (by decide +kernel)
  have hdecimalDifference := (multi_byte_sum (summing 0xE9 true [(0x00, 0x00), (0x00, 0x10)])
    [(0x00, 0x00), (0x00, 0x10)] (by decide)).2 (by decide +kernel)
  obtain ⟨hvalue, hoverflow⟩ := hsum.1 rfl
  obtain ⟨-, hdecimalValue⟩ := hdecimalSum.2 rfl (by simp [IsDecimal])
  obtain ⟨hless, hunderflow⟩ := hdifference.1 rfl
  obtain ⟨-, hdecimalLess⟩ := hdecimalDifference.2 rfl (by simp [IsDecimal])
  exact ⟨⟨hvalue, hoverflow.mpr (by decide +kernel)⟩, hdecimalValue,
    ⟨hless, hunderflow.mpr (by decide +kernel)⟩, hdecimalLess⟩

end Cpu
end Nmos6502
