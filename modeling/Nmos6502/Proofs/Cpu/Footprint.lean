import Nmos6502.Memory
import Nmos6502.Proofs.Cpu.Trace
import Nmos6502.Proofs.OpcodeLookup

/-!
# Footprints

The footprint of an instruction is what its operation is documented to change: registers, flags and
cells of memory. Main statement: `Operation.effect_within`, for what an operation does to registers.
-/

set_option autoImplicit false

namespace Nmos6502

inductive Flag where
  | negative
  | overflow
  | unused
  | breakFlag
  | decimal
  | interruptDisable
  | zero
  | carry
  deriving DecidableEq, Repr

inductive Register where
  | a
  | x
  | y
  | sp
  deriving DecidableEq, Repr

def Status.get (status : Status) : Flag → Bool
  | .negative => status.negative
  | .overflow => status.overflow
  | .unused => status.unused
  | .breakFlag => status.breakFlag
  | .decimal => status.decimal
  | .interruptDisable => status.interruptDisable
  | .zero => status.zero
  | .carry => status.carry

def Registers.get (r : Registers) : Register → UInt8
  | .a => r.a
  | .x => r.x
  | .y => r.y
  | .sp => r.sp

structure Footprint where
  registers : List Register := []
  flags : List Flag := []

namespace Flag

def all : List Flag :=
  [negative, overflow, unused, breakFlag, decimal, interruptDisable, zero, carry]

theorem mem_all (flag : Flag) : flag ∈ all := by
  cases flag <;> decide

end Flag

namespace Operation

/-- What an operation is documented to change besides memory. -/
def footprint (mode : AddressingMode) : Operation → Footprint
  | adc | sbc => ⟨[.a], [.negative, .overflow, .zero, .carry]⟩
  | and | ora | eor | lda | txa | tya => ⟨[.a], [.negative, .zero]⟩
  | ldx | inx | dex | tax | tsx => ⟨[.x], [.negative, .zero]⟩
  | ldy | iny | dey | tay => ⟨[.y], [.negative, .zero]⟩
  | inc | dec => ⟨[], [.negative, .zero]⟩
  | asl | lsr | rol | ror =>
    ⟨if mode = .accumulator then [.a] else [], [.negative, .zero, .carry]⟩
  | cmp | cpx | cpy => ⟨[], [.negative, .zero, .carry]⟩
  | bit => ⟨[], [.negative, .overflow, .zero]⟩
  | clc | sec => ⟨[], [.carry]⟩
  | cld | sed => ⟨[], [.decimal]⟩
  | cli | sei => ⟨[], [.interruptDisable]⟩
  | clv => ⟨[], [.overflow]⟩
  | txs | pha | php | jsr | rts => ⟨[.sp], []⟩
  | pla => ⟨[.a, .sp], [.negative, .zero]⟩
  | plp | rti => ⟨[.sp], Flag.all⟩
  | brk => ⟨[.sp], [.breakFlag, .interruptDisable]⟩
  | sta | stx | sty | bcc | bcs | beq | bmi | bne | bpl | bvc | bvs | jmp | nop |
    undefined => {}

end Operation

def Status.SameOutside (flags : List Flag) (before after : Status) : Prop :=
  ∀ flag, flag ∉ flags → after.get flag = before.get flag

def Registers.SameOutside (footprint : Footprint) (before after : Registers) : Prop :=
  (∀ register, register ∉ footprint.registers → after.get register = before.get register) ∧
    Status.SameOutside footprint.flags before.status after.status

namespace Effect

/-- Whether an effect changes no registers and flags outside of a footprint. -/
def Within (mode : AddressingMode) (footprint : Footprint) : Effect → Prop
  | load update => ∀ r b, Registers.SameOutside footprint r (update r b)
  | internal update => ∀ r, Registers.SameOutside footprint r (update r)
  | modify change =>
    (mode = .accumulator → .a ∈ footprint.registers) ∧
      ∀ status b, Status.SameOutside footprint.flags status (change status b).2
  | pull update =>
    .sp ∈ footprint.registers ∧ ∀ r b, Registers.SameOutside footprint r (update r b)
  | push _ | call | returnFromCall => .sp ∈ footprint.registers
  | interrupt =>
    .sp ∈ footprint.registers ∧ .breakFlag ∈ footprint.flags ∧ .interruptDisable ∈ footprint.flags
  | returnFromInterrupt => .sp ∈ footprint.registers ∧ ∀ flag, flag ∈ footprint.flags
  | store _ | branch _ | jump => True

end Effect

theorem Status.sameOutside_withResult (status : Status) (result : UInt8) :
    SameOutside [.negative, .zero] status (status.withResult result) := by
  intro flag h
  cases flag with
  | negative | zero => simp at h
  | _ => rfl

namespace Registers

variable (r : Registers) (value : UInt8)

theorem SameOutside.mono {small large : Footprint} {before after : Registers}
    (h : SameOutside small before after) (hregisters : small.registers ⊆ large.registers)
    (hflags : small.flags ⊆ large.flags) : SameOutside large before after :=
  ⟨fun register hout => h.1 register fun hin => hout (hregisters hin),
    fun flag hout => h.2 flag fun hin => hout (hflags hin)⟩

theorem sameOutside_setA : SameOutside ⟨[.a], [.negative, .zero]⟩ r (r.setA value) := by
  refine ⟨fun register h => ?_, r.status.sameOutside_withResult value⟩
  cases register with
  | a => simp at h
  | _ => rfl

theorem sameOutside_setX : SameOutside ⟨[.x], [.negative, .zero]⟩ r (r.setX value) := by
  refine ⟨fun register h => ?_, r.status.sameOutside_withResult value⟩
  cases register with
  | x => simp at h
  | _ => rfl

theorem sameOutside_setY : SameOutside ⟨[.y], [.negative, .zero]⟩ r (r.setY value) := by
  refine ⟨fun register h => ?_, r.status.sameOutside_withResult value⟩
  cases register with
  | y => simp at h
  | _ => rfl

theorem sameOutside_setSum (sum : Arithmetic.Sum) :
    SameOutside ⟨[.a], [.negative, .overflow, .zero, .carry]⟩ r (r.setSum sum) := by
  constructor
  · intro register h
    cases register with
    | a => simp at h
    | _ => rfl
  · intro flag h
    cases flag with
    | negative | overflow | zero | carry => simp at h
    | _ => rfl

theorem sameOutside_compare (register : UInt8) :
    SameOutside ⟨[], [.negative, .zero, .carry]⟩ r (r.compare register value) := by
  refine ⟨fun register _ => by cases register <;> rfl, fun flag h => ?_⟩
  cases flag with
  | negative | zero | carry => simp at h
  | _ => rfl

theorem sameOutside_testBits :
    SameOutside ⟨[], [.negative, .overflow, .zero]⟩ r (r.testBits value) := by
  refine ⟨fun register _ => by cases register <;> rfl, fun flag h => ?_⟩
  cases flag with
  | negative | overflow | zero => simp at h
  | _ => rfl

end Registers

namespace Effect

theorem within_shift (f : Bool → UInt8 → UInt8 × Bool) (mode : AddressingMode) :
    (shift f).Within mode
      ⟨if mode = .accumulator then [.a] else [], [.negative, .zero, .carry]⟩ := by
  refine ⟨fun h => by simp [h], fun status b flag h => ?_⟩
  cases flag with
  | negative | zero | carry => simp at h
  | _ => rfl

end Effect

theorem Operation.effect_within {operation : Operation} {mode : AddressingMode}
    (hmode : operation = .inc ∨ operation = .dec → mode ≠ .accumulator) :
    operation.effect.Within mode (operation.footprint mode) := by
  cases operation with
  | adc | sbc => exact fun r b => r.sameOutside_setSum _
  | and | ora | eor | lda => exact fun r b => r.sameOutside_setA _
  | txa | tya => exact fun r => r.sameOutside_setA _
  | ldx => exact fun r b => r.sameOutside_setX b
  | inx | dex | tax | tsx => exact fun r => r.sameOutside_setX _
  | ldy => exact fun r b => r.sameOutside_setY b
  | iny | dey | tay => exact fun r => r.sameOutside_setY _
  | inc | dec =>
    exact ⟨fun h => absurd h (hmode (by simp)), fun status b => status.sameOutside_withResult _⟩
  | asl => exact Effect.within_shift (fun _ => Arithmetic.shiftLeft false) mode
  | lsr => exact Effect.within_shift (fun _ => Arithmetic.shiftRight false) mode
  | rol | ror => exact Effect.within_shift _ mode
  | cmp | cpx | cpy => exact fun r b => r.sameOutside_compare b _
  | bit => exact fun r b => r.sameOutside_testBits b
  | clc | sec | cld | sed | cli | sei | clv =>
    refine fun r => ⟨fun register _ => by cases register <;> rfl, fun flag h => ?_⟩
    cases flag <;> first | rfl | simp [footprint] at h
  | txs =>
    refine fun r => ⟨fun register h => ?_, fun _ _ => rfl⟩
    cases register <;> first | rfl | simp [footprint] at h
  | pha | php | jsr | rts => simp [effect, Effect.Within, footprint]
  | pla =>
    refine ⟨by simp [footprint], fun r b => (r.sameOutside_setA b).mono ?_ ?_⟩ <;> simp [footprint]
  | plp =>
    refine ⟨by simp [footprint], fun r b => ⟨fun register _ => by cases register <;> rfl, ?_⟩⟩
    exact fun flag h => absurd flag.mem_all h
  | rti => exact ⟨by simp [footprint], Flag.mem_all⟩
  | brk => simp [effect, Effect.Within, footprint]
  | sta | stx | sty | bcc | bcs | beq | bmi | bne | bpl | bvc | bvs | jmp => trivial
  | nop | undefined => exact fun r => ⟨fun _ _ => rfl, fun _ _ => rfl⟩

end Nmos6502
