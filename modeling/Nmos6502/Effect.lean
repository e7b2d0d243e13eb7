import Nmos6502.Operation
import Nmos6502.Registers

/-!
# Effects of operations

An operation acts in one of a few ways: it reads a byte of memory, writes one, changes one in place,
works on registers alone, moves the stack, or goes on elsewhere. `Operation.effect` says which way,
and what becomes of the values.
-/

set_option autoImplicit false

namespace Nmos6502

/-- The ways in which an operation acts. -/
inductive Effect where
  | load (update : Registers → UInt8 → Registers)
  | store (source : Registers → UInt8)
  /-- Replaces a byte, in memory or in the accumulator, and changes the flags. -/
  | modify (change : Status → UInt8 → UInt8 × Status)
  | internal (update : Registers → Registers)
  | branch (taken : Status → Bool)
  | jump
  | push (source : Registers → UInt8)
  | pull (update : Registers → UInt8 → Registers)
  /-- Pushes the address of its last byte and goes on elsewhere. -/
  | call
  | returnFromCall
  | interrupt
  | returnFromInterrupt

namespace Effect

def step (f : UInt8 → UInt8) : Effect :=
  modify fun status b => (f b, status.withResult (f b))

/-- Shifts a byte, with what comes in chosen by the carry; the carry takes what falls out. -/
def shift (f : Bool → UInt8 → UInt8 × Bool) : Effect :=
  modify fun status b =>
    let (result, carry) := f status.carry b
    (result, { status with carry }.withResult result)

def flags (f : Status → Status) : Effect := internal fun r => r.mapStatus f

end Effect

def Operation.effect : Operation → Effect
  | adc => .load Registers.add
  | and => .load fun r b => r.setA (r.a &&& b)
  | asl => .shift fun _ => Arithmetic.shiftLeft false
  | bcc => .branch fun status => !status.carry
  | bcs => .branch fun status => status.carry
  | beq => .branch fun status => status.zero
  | bit => .load Registers.testBits
  | bmi => .branch fun status => status.negative
  | bne => .branch fun status => !status.zero
  | bpl => .branch fun status => !status.negative
  | brk => .interrupt
  | bvc => .branch fun status => !status.overflow
  | bvs => .branch fun status => status.overflow
  | clc => .flags fun status => { status with carry := false }
  | cld => .flags fun status => { status with decimal := false }
  | cli => .flags fun status => { status with interruptDisable := false }
  | clv => .flags fun status => { status with overflow := false }
  | cmp => .load fun r b => r.compare r.a b
  | cpx => .load fun r b => r.compare r.x b
  | cpy => .load fun r b => r.compare r.y b
  | dec => .step fun b => b - 1
  | dex => .internal fun r => r.setX (r.x - 1)
  | dey => .internal fun r => r.setY (r.y - 1)
  | eor => .load fun r b => r.setA (r.a ^^^ b)
  | inc => .step fun b => b + 1
  | inx => .internal fun r => r.setX (r.x + 1)
  | iny => .internal fun r => r.setY (r.y + 1)
  | jmp => .jump
  | jsr => .call
  | lda => .load Registers.setA
  | ldx => .load Registers.setX
  | ldy => .load Registers.setY
  | lsr => .shift fun _ => Arithmetic.shiftRight false
  | nop => .internal id
  | ora => .load fun r b => r.setA (r.a ||| b)
  | pha => .push Registers.a
  | php => .push fun r => r.status.pushed
  | pla => .pull Registers.setA
  | plp => .pull fun r b => { r with status := Status.pulled b }
  | rol => .shift Arithmetic.shiftLeft
  | ror => .shift Arithmetic.shiftRight
  | rti => .returnFromInterrupt
  | rts => .returnFromCall
  | sbc => .load Registers.subtract
  | sec => .flags fun status => { status with carry := true }
  | sed => .flags fun status => { status with decimal := true }
  | sei => .flags fun status => { status with interruptDisable := true }
  | sta => .store Registers.a
  | stx => .store Registers.x
  | sty => .store Registers.y
  | tax => .internal fun r => r.setX r.a
  | tay => .internal fun r => r.setY r.a
  | tsx => .internal fun r => r.setX r.sp
  | txa => .internal fun r => r.setA r.x
  | txs => .internal fun r => { r with sp := r.x }
  | tya => .internal fun r => r.setA r.y
  | undefined => .internal id

end Nmos6502
