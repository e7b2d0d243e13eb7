import Nmos6502.AddressingMode
import Nmos6502.Operation

set_option autoImplicit false

namespace Nmos6502

structure Opcode where
  operation : Operation
  mode : AddressingMode
  cycles : Nat
  pagePenalty : Bool
  deriving DecidableEq, Repr

namespace Opcode

def entry (operation : Operation) (mode : AddressingMode) (cycles : Nat) : Opcode :=
  ⟨operation, mode, cycles, false⟩

/-- An indexed read, which pays for leaving the page. -/
def paged (operation : Operation) (mode : AddressingMode) (cycles : Nat) : Opcode :=
  ⟨operation, mode, cycles, true⟩

/-- The placeholder for a byte without a documented instruction. -/
def gap : Opcode := ⟨.undefined, .implicit, 2, false⟩

set_option maxRecDepth 4000 in
/-- The entries of all opcode bytes in order, sixteen to a block. -/
def table : Vector Opcode 256 := #v[
  -- 00
  entry .brk .implicit 7,
  entry .ora .indirectX 6,
  gap,
  gap,
  gap,
  entry .ora .zeroPage 3,
  entry .asl .zeroPage 5,
  gap,
  entry .php .implicit 3,
  entry .ora .immediate 2,
  entry .asl .accumulator 2,
  gap,
  gap,
  entry .ora .absolute 4,
  entry .asl .absolute 6,
  gap,
  -- 10
  entry .bpl .relative 2,
  paged .ora .indirectY 5,
  gap,
  gap,
  gap,
  entry .ora .zeroPageX 4,
  entry .asl .zeroPageX 6,
  gap,
  entry .clc .implicit 2,
  paged .ora .absoluteY 4,
  gap,
  gap,
  gap,
  paged .ora .absoluteX 4,
  entry .asl .absoluteX 7,
  gap,
  -- 20
  entry .jsr .absolute 6,
  entry .and .indirectX 6,
  gap,
  gap,
  entry .bit .zeroPage 3,
  entry .and .zeroPage 3,
  entry .rol .zeroPage 5,
  gap,
  entry .plp .implicit 4,
  entry .and .immediate 2,
  entry .rol .accumulator 2,
  gap,
  entry .bit .absolute 4,
  entry .and .absolute 4,
  entry .rol .absolute 6,
  gap,
  -- 30
  entry .bmi .relative 2,
  paged .and .indirectY 5,
  gap,
  gap,
  gap,
  entry .and .zeroPageX 4,
  entry .rol .zeroPageX 6,
  gap,
  entry .sec .implicit 2,
  paged .and .absoluteY 4,
  gap,
  gap,
  gap,
  paged .and .absoluteX 4,
  entry .rol .absoluteX 7,
  gap,
  -- 40
  entry .rti .implicit 6,
  entry .eor .indirectX 6,
  gap,
  gap,
  gap,
  entry .eor .zeroPage 3,
  entry .lsr .zeroPage 5,
  gap,
  entry .pha .implicit 3,
  entry .eor .immediate 2,
  entry .lsr .accumulator 2,
  gap,
  entry .jmp .absolute 3,
  entry .eor .absolute 4,
  entry .lsr .absolute 6,
  gap,
  -- 50
  entry .bvc .relative 2,
  paged .eor .indirectY 5,
  gap,
  gap,
  gap,
  entry .eor .zeroPageX 4,
  entry .lsr .zeroPageX 6,
  gap,
  entry .cli .implicit 2,
  paged .eor .absoluteY 4,
  gap,
  gap,
  gap,
  paged .eor .absoluteX 4,
  entry .lsr .absoluteX 7,
  gap,
  -- 60
  entry .rts .implicit 6,
  entry .adc .indirectX 6,
  gap,
  gap,
  gap,
  entry .adc .zeroPage 3,
  entry .ror .zeroPage 5,
  gap,
  entry .pla .implicit 4,
  entry .adc .immediate 2,
  entry .ror .accumulator 2,
  gap,
  entry .jmp .indirect 5,
  entry .adc .absolute 4,
  entry .ror .absolute 6,
  gap,
  -- 70
  entry .bvs .relative 2,
  paged .adc .indirectY 5,
  gap,
  gap,
  gap,
  entry .adc .zeroPageX 4,
  entry .ror .zeroPageX 6,
  gap,
  entry .sei .implicit 2,
  paged .adc .absoluteY 4,
  gap,
  gap,
  gap,
  paged .adc .absoluteX 4,
  entry .ror .absoluteX 7,
  gap,
  -- 80
  gap,
  entry .sta .indirectX 6,
  gap,
  gap,
  entry .sty .zeroPage 3,
  entry .sta .zeroPage 3,
  entry .stx .zeroPage 3,
  gap,
  entry .dey .implicit 2,
  gap,
  entry .txa .implicit 2,
  gap,
  entry .sty .absolute 4,
  entry .sta .absolute 4,
  entry .stx .absolute 4,
  gap,
  -- 90
  entry .bcc .relative 2,
  entry .sta .indirectY 6,
  gap,
  gap,
  entry .sty .zeroPageX 4,
  entry .sta .zeroPageX 4,
  entry .stx .zeroPageY 4,
  gap,
  entry .tya .implicit 2,
  entry .sta .absoluteY 5,
  entry .txs .implicit 2,
  gap,
  gap,
  entry .sta .absoluteX 5,
  gap,
  gap,
  -- A0
  entry .ldy .immediate 2,
  entry .lda .indirectX 6,
  entry .ldx .immediate 2,
  gap,
  entry .ldy .zeroPage 3,
  entry .lda .zeroPage 3,
  entry .ldx .zeroPage 3,
  gap,
  entry .tay .implicit 2,
  entry .lda .immediate 2,
  entry .tax .implicit 2,
  gap,
  entry .ldy .absolute 4,
  entry .lda .absolute 4,
  entry .ldx .absolute 4,
  gap,
  -- B0
  entry .bcs .relative 2,
  paged .lda .indirectY 5,
  gap,
  gap,
  entry .ldy .zeroPageX 4,
  entry .lda .zeroPageX 4,
  entry .ldx .zeroPageY 4,
  gap,
  entry .clv .implicit 2,
  paged .lda .absoluteY 4,
  entry .tsx .implicit 2,
  gap,
  paged .ldy .absoluteX 4,
  paged .lda .absoluteX 4,
  paged .ldx .absoluteY 4,
  gap,
  -- C0
  entry .cpy .immediate 2,
  entry .cmp .indirectX 6,
  gap,
  gap,
  entry .cpy .zeroPage 3,
  entry .cmp .zeroPage 3,
  entry .dec .zeroPage 5,
  gap,
  entry .iny .implicit 2,
  entry .cmp .immediate 2,
  entry .dex .implicit 2,
  gap,
  entry .cpy .absolute 4,
  entry .cmp .absolute 4,
  entry .dec .absolute 6,
  gap,
  -- D0
  entry .bne .relative 2,
  paged .cmp .indirectY 5,
  gap,
  gap,
  gap,
  entry .cmp .zeroPageX 4,
  entry .dec .zeroPageX 6,
  gap,
  entry .cld .implicit 2,
  paged .cmp .absoluteY 4,
  gap,
  gap,
  gap,
  paged .cmp .absoluteX 4,
  entry .dec .absoluteX 7,
  gap,
  -- E0
  entry .cpx .immediate 2,
  entry .sbc .indirectX 6,
  gap,
  gap,
  entry .cpx .zeroPage 3,
  entry .sbc .zeroPage 3,
  entry .inc .zeroPage 5,
  gap,
  entry .inx .implicit 2,
  entry .sbc .immediate 2,
  entry .nop .implicit 2,
  gap,
  entry .cpx .absolute 4,
  entry .sbc .absolute 4,
  entry .inc .absolute 6,
  gap,
  -- F0
  entry .beq .relative 2,
  paged .sbc .indirectY 5,
  gap,
  gap,
  gap,
  entry .sbc .zeroPageX 4,
  entry .inc .zeroPageX 6,
  gap,
  entry .sed .implicit 2,
  paged .sbc .absoluteY 4,
  gap,
  gap,
  gap,
  paged .sbc .absoluteX 4,
  entry .inc .absoluteX 7,
  gap]

def ofByte (b : UInt8) : Opcode := table[b.toFin]

def mnemonic (opcode : Opcode) : String := opcode.operation.mnemonic

def size (opcode : Opcode) : Nat := opcode.mode.instructionSize

def isDocumented (opcode : Opcode) : Bool := opcode.operation != .undefined

set_option maxRecDepth 4000 in
theorem two_le_cycles (b : UInt8) : 2 ≤ (ofByte b).cycles := by
  have all : ∀ i : Fin 256, 2 ≤ table[i].cycles := by decide
  exact all b.toFin

end Opcode

def allBytes : List UInt8 := (List.range 256).map UInt8.ofNat

theorem mem_allBytes (b : UInt8) : b ∈ allBytes :=
  List.mem_map.mpr ⟨b.toNat, List.mem_range.mpr b.toNat_lt, UInt8.ofNat_toNat⟩

end Nmos6502
