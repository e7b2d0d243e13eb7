import Nmos6502.Assembly.Error
import Nmos6502.Text.Blank

set_option autoImplicit false

namespace Nmos6502.Assembly.Data

def charByte (c : Char) : UInt8 := UInt8.ofNat c.toNat

def quoted? : List Char → Option (List Char)
  | [] => none
  | quote :: rest => if Text.isQuote quote then Text.dropEnding? [quote] rest else none

def item? (item : List Char) : Option (List UInt8) :=
  match quoted? item with
  | some text => some (text.map charByte)
  | none => (Numeral.value? item).map fun value => [lowByte value]

def items (operand : List Char) : List (List Char) :=
  (Text.unquotedParts ',' operand).map Text.trim

/-- The bytes of all items in order, or the first item that has none. -/
def bytes (operand : List Char) : Except Cause (List UInt8) := do
  let parts ← (items operand).mapM fun item =>
    match item? item with
    | some part => .ok part
    | none => .error (.invalidData (String.ofList item))
  return parts.flatten

end Nmos6502.Assembly.Data
