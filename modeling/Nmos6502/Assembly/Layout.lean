import Nmos6502.Assembly.Constant
import Nmos6502.Assembly.Data
import Nmos6502.Assembly.Record
import Nmos6502.Assembly.SourceLine

/-!
# Layout

The first pass lays out the source line by line: each record gets the address that the cursor has
reached, and moves the cursor by its size. A label takes the address of the cursor at its
declaration.
-/

set_option autoImplicit false

namespace Nmos6502.Assembly

structure Layout where
  cursor : UInt16
  constants : List Constant := []
  records : Array Record := #[]
  symbols : SymbolTable := {}

namespace Layout

def put (layout : Layout) (line : Nat) (operation operand : List Char) (size : UInt16)
    (content : Content) : Layout :=
  { layout with
    cursor := layout.cursor + size
    records := layout.records.push
      { operation := String.ofList operation
        operand := String.ofList operand
        line
        address := layout.cursor
        size
        content } }

def declare (layout : Layout) (line : Nat) (name : List Char) : Except Cause Layout :=
  match layout.symbols.add? ⟨String.ofList name, layout.cursor, line⟩ with
  | .error first => .error (.duplicateLabel first.name first.line)
  | .ok symbols =>
    .ok ({ layout with symbols }.put line ['L', 'A', 'B', 'E', 'L'] [] 0
      (.label (String.ofList name)))

def setOrigin (layout : Layout) (line : Nat) (word operand : List Char) : Except Cause Layout :=
  match Numeral.value? operand with
  | none => .error (.invalidOrigin (String.ofList operand))
  | some address => .ok ({ layout with cursor := address }.put line word operand 0 .origin)

def putData (layout : Layout) (line : Nat) (word operand : List Char) : Except Cause Layout := do
  let bytes ← Data.bytes operand
  return layout.put line word operand (UInt16.ofNat bytes.length) (.data bytes)

def constant? (operand : List Char) : Option Constant := do
  let (name, value) ← Text.splitFirst? Text.isBlank operand
  let value := Text.trim value
  if Label.isName name && !value.isEmpty then
    some ⟨String.ofList name, String.ofList value⟩
  else none

def define (layout : Layout) (line : Nat) (word operand : List Char) : Except Cause Layout :=
  match constant? operand with
  | none => .error (.invalidConstant (String.ofList operand))
  | some constant =>
    .ok ({ layout with constants := constant.define layout.constants }.put line word operand 0
      (.constant constant.name constant.value))

def readOperand (operation : Operation) (word operand : List Char) : Except Cause Operand :=
  let classified :=
    if operation.isBranch then .ok (Operand.classifyBranch operand) else Operand.classify operand
  match classified with
  | .error error => .error (.immediate error)
  | .ok none => .error (.invalidOperand (String.ofList word) (String.ofList operand))
  | .ok (some operand) => .ok operand

/-- What follows the opcode of an instruction at the given address. A branch to a number is resolved
at once. -/
def argument (address : UInt16) : Operand → Except Cause Argument
  | .implied | .accumulator => .ok .none
  | .immediate value => .ok (.value value.toUInt16)
  | .addressByte selector label => .ok (.label label (.byte selector))
  | .zeroPage address _ => .ok (.value address.toUInt16)
  | .absolute (.number value) _ => .ok (.value value)
  | .absolute (.label name) _ => .ok (.label name .absolute)
  | .indirect pointer => .ok (.value pointer)
  | .indirectX pointer | .indirectY pointer => .ok (.value pointer.toUInt16)
  | .branch (.number target) =>
    (branchByte (address + 2) target).map fun offset => .value offset.toUInt16
  | .branch (.label name) => .ok (.label name .branch)

def putInstruction (layout : Layout) (line : Nat) (word operand : List Char) :
    Except Cause Layout :=
  match Operation.ofMnemonic? word with
  | none => .error (.unknownMnemonic (String.ofList word))
  | some operation => do
    let text := Text.removeBlanks (Constant.substitute layout.constants operand)
    let operand ← readOperand operation word text
    let argument ← argument layout.cursor operand
    let form := operation.assembledForm operand.form
    match operation.opcode? form with
    | none => .error (.unsupportedForm (String.ofList word) form)
    | some opcode =>
      .ok (layout.put line word text (UInt16.ofNat form.instructionSize)
        (.instruction opcode argument))

def execute (layout : Layout) (line : Nat) : Statement → Except Cause Layout
  | .empty => .ok layout
  | .origin word operand => layout.setOrigin line word operand
  | .data word operand => layout.putData line word operand
  | .constant word operand => layout.define line word operand
  | .instruction word operand => layout.putInstruction line word operand

def addSourceLine (layout : Layout) (line : Nat) (source : SourceLine) : Except Cause Layout := do
  let layout ← match source.label with
    | none => pure layout
    | some name => layout.declare line name
  layout.execute line source.statement

def addLine (layout : Layout) (text : List Char) (line : Nat) : Except Error Layout :=
  (layout.addSourceLine line (SourceLine.ofText text)).mapError (Error.mk line)

def addLines (layout : Layout) (lines : List (List Char × Nat)) : Except Error Layout :=
  lines.foldlM (fun layout line => layout.addLine line.1 line.2) layout

end Layout
end Nmos6502.Assembly
