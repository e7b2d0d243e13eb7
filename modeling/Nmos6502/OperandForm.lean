import Nmos6502.Opcode

set_option autoImplicit false

namespace Nmos6502

inductive OperandForm where
  | immediate
  | zeroPage
  | zeroPageX
  | zeroPageY
  | absolute
  | absoluteX
  | absoluteY
  | indirect
  | indirectX
  | indirectY
  | implied
  | relative
  deriving DecidableEq, Repr

namespace OperandForm

def all : List OperandForm :=
  [immediate, zeroPage, zeroPageX, zeroPageY, absolute, absoluteX, absoluteY, indirect, indirectX,
    indirectY, implied, relative]

def ofMode : AddressingMode → OperandForm
  | .implicit | .accumulator => implied
  | .immediate => immediate
  | .zeroPage => zeroPage
  | .zeroPageX => zeroPageX
  | .zeroPageY => zeroPageY
  | .relative => relative
  | .absolute => absolute
  | .absoluteX => absoluteX
  | .absoluteY => absoluteY
  | .indirect => indirect
  | .indirectX => indirectX
  | .indirectY => indirectY

def description : OperandForm → String
  | immediate => "immediate"
  | zeroPage => "zero page"
  | zeroPageX => "zero page,X"
  | zeroPageY => "zero page,Y"
  | absolute => "absolute"
  | absoluteX => "absolute,X"
  | absoluteY => "absolute,Y"
  | indirect => "indirect"
  | indirectX => "(indirect,X)"
  | indirectY => "(indirect),Y"
  | implied => "implied"
  | relative => "relative"

/-- The form with a full address that does the work of a zero-page form. -/
def widened : OperandForm → Option OperandForm
  | zeroPage => some absolute
  | zeroPageX => some absoluteX
  | zeroPageY => some absoluteY
  | _ => none

def instructionSize : OperandForm → Nat
  | implied => 1
  | immediate | zeroPage | zeroPageX | zeroPageY | indirectX | indirectY | relative => 2
  | absolute | absoluteX | absoluteY | indirect => 3

theorem mem_all (form : OperandForm) : form ∈ all := by
  cases form <;> decide

theorem instructionSize_ofMode (mode : AddressingMode) :
    (ofMode mode).instructionSize = mode.instructionSize := by
  cases mode <;> rfl

end OperandForm

namespace Operation

def opcode? (operation : Operation) (form : OperandForm) : Option UInt8 :=
  allBytes.find? fun b =>
    let opcode := Opcode.ofByte b
    opcode.isDocumented && opcode.operation == operation && OperandForm.ofMode opcode.mode == form

def supports (operation : Operation) (form : OperandForm) : Bool :=
  (operation.opcode? form).isSome

def isBranch (operation : Operation) : Bool := operation.supports .relative

/-- The form an operand of the given form is assembled in: its own, or for a zero-page form that the
operation lacks, the widened one if the operation has that. -/
def assembledForm (operation : Operation) (form : OperandForm) : OperandForm :=
  match form.widened with
  | some wide => if !operation.supports form && operation.supports wide then wide else form
  | none => form

end Operation
end Nmos6502
