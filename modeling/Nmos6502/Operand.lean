import Nmos6502.Label
import Nmos6502.Numeral
import Nmos6502.OperandForm
import Nmos6502.Text.Split
import Nmos6502.Word

set_option autoImplicit false

namespace Nmos6502

inductive IndexRegister where
  | x
  | y
  deriving DecidableEq, Repr

inductive ByteSelector where
  | low
  | high
  deriving DecidableEq, Repr

def ByteSelector.select : ByteSelector → UInt16 → UInt8
  | low, w => lowByte w
  | high, w => highByte w

/-- An address in source text: a number, or a label whose address is known only after all lines
have been read. -/
inductive Target where
  | number (value : UInt16)
  | label (name : String)
  deriving DecidableEq, Repr

inductive Operand where
  | implied
  | accumulator
  | immediate (value : UInt8)
  | addressByte (selector : ByteSelector) (label : String)
  | zeroPage (address : UInt8) (index : Option IndexRegister)
  | absolute (target : Target) (index : Option IndexRegister)
  | indirect (pointer : UInt16)
  | indirectX (pointer : UInt8)
  | indirectY (pointer : UInt8)
  | branch (target : Target)
  deriving DecidableEq, Repr

inductive ImmediateError where
  | outOfRange (operand : String)
  | malformed (operand : String)
  deriving DecidableEq, Repr

namespace ImmediateError

def message : ImmediateError → String
  | outOfRange operand => s!"immediate value must be a byte: '{operand}'"
  | malformed operand => s!"invalid format for immediate value: '{operand}'"

end ImmediateError

namespace Operand

/-- The text before a comma and the index register behind it, if there is a comma at all. -/
def splitIndex? (text : List Char) : Option (List Char × Option IndexRegister) :=
  match Text.splitFirst? (· == ',') text with
  | none => some (text, none)
  | some (base, ['X']) => some (base, some .x)
  | some (base, ['Y']) => some (base, some .y)
  | some _ => none

def ofBare? : List Char → Option Operand
  | [] => some implied
  | ['A'] => some accumulator
  | _ => none

def splitSelector : List Char → Option ByteSelector × List Char
  | '<' :: rest => (some .low, rest)
  | '>' :: rest => (some .high, rest)
  | text => (none, text)

/-- The text behind a number sign. A selector may stand before a label or before a number, and takes
one half of it; without one, the number itself has to be a byte. -/
def ofImmediateBody (whole body : List Char) : Except ImmediateError Operand :=
  let (selector, rest) := splitSelector body
  match Numeral.value? rest, selector with
  | some value, some selector => .ok (immediate (selector.select value))
  | some value, none =>
    if value ≤ 0xFF then .ok (immediate value.toUInt8)
    else .error (.outOfRange (String.ofList whole))
  | none, some selector =>
    if Label.isName rest then .ok (addressByte selector (String.ofList rest))
    else .error (.malformed (String.ofList whole))
  | none, none => .error (.malformed (String.ofList whole))

def ofImmediate? (text : List Char) : Except ImmediateError (Option Operand) :=
  match text with
  | '#' :: body => (ofImmediateBody text body).map some
  | _ => .ok none

def ofZeroPage? (text : List Char) : Option Operand := do
  let (base, index) ← splitIndex? text
  let address ← Numeral.byteValue? base
  return zeroPage address index

def target? (text : List Char) : Option Target :=
  if Label.isName text then some (.label (String.ofList text))
  else (Numeral.value? text).map .number

def ofAbsolute? (text : List Char) : Option Operand := do
  let (base, index) ← splitIndex? text
  let target ← target? base
  return absolute target index

/-- A number in parentheses, with X inside them or Y outside, for numbers below 256. -/
def ofIndirect? : List Char → Option Operand
  | '(' :: rest =>
    match Text.dropEnding? [')', ',', 'Y'] rest with
    | some inner => (Numeral.byteValue? inner).map indirectY
    | none => do
      let inner ← Text.dropEnding? [')'] rest
      match ← splitIndex? inner with
      | (base, none) => (Numeral.value? base).map indirect
      | (base, some .x) => (Numeral.byteValue? base).map indirectX
      | (_, some .y) => none
  | _ => none

def ofBranch? (text : List Char) : Option Operand := (target? text).map branch

def classify (text : List Char) : Except ImmediateError (Option Operand) := do
  match ofBare? text with
  | some operand => return some operand
  | none =>
    match ← ofImmediate? text with
    | some operand => return some operand
    | none =>
      return (ofZeroPage? text).or ((ofAbsolute? text).or ((ofIndirect? text).or (ofBranch? text)))

def classifyBranch (text : List Char) : Option Operand := (ofBare? text).or (ofBranch? text)

def indexedForm (plain x y : OperandForm) : Option IndexRegister → OperandForm
  | none => plain
  | some .x => x
  | some .y => y

def form : Operand → OperandForm
  | implied | accumulator => .implied
  | immediate _ | addressByte _ _ => .immediate
  | zeroPage _ index => indexedForm .zeroPage .zeroPageX .zeroPageY index
  | absolute _ index => indexedForm .absolute .absoluteX .absoluteY index
  | indirect _ => .indirect
  | indirectX _ => .indirectX
  | indirectY _ => .indirectY
  | branch _ => .relative

end Operand
end Nmos6502
