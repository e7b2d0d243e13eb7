import Nmos6502.Operand

set_option autoImplicit false

namespace Nmos6502.Assembly

inductive Cause where
  | unknownMnemonic (mnemonic : String)
  | invalidOperand (mnemonic operand : String)
  | unsupportedForm (mnemonic : String) (form : OperandForm)
  | immediate (error : ImmediateError)
  | invalidData (item : String)
  | invalidOrigin (operand : String)
  | invalidConstant (operand : String)
  | duplicateLabel (name : String) (firstLine : Nat)
  | undefinedLabel (name : String)
  | branchOutOfRange (offset : Int)
  deriving DecidableEq, Repr

def signed (n : Int) : String := if n < 0 then toString n else "+" ++ toString n

namespace Cause

def message : Cause → String
  | unknownMnemonic mnemonic => s!"unknown mnemonic '{mnemonic}'"
  | invalidOperand mnemonic operand => s!"invalid operand '{operand}' for {mnemonic}"
  | unsupportedForm mnemonic form =>
    s!"{mnemonic} does not support {form.description} addressing"
  | immediate error => error.message
  | invalidData item => s!"invalid byte literal '{item}'"
  | invalidOrigin operand => s!"invalid origin address '{operand}'"
  | invalidConstant operand => s!"invalid constant definition '{operand}'"
  | duplicateLabel name firstLine =>
    s!"duplicate label '{name}' (first defined on line {firstLine})"
  | undefinedLabel name => s!"undefined label '{name}'"
  | branchOutOfRange offset =>
    s!"branch target {signed offset} bytes away, must be within -128..=127"

/-- Whether a cause is a failure to resolve a label. -/
def isLabelError : Cause → Bool
  | undefinedLabel _ | branchOutOfRange _ => true
  | _ => false

end Cause

structure Error where
  line : Nat
  cause : Cause
  deriving DecidableEq, Repr

namespace Error

def message (error : Error) : String := s!"line {error.line}: {error.cause.message}"

/-- Whether an error is a failure to resolve a label. -/
def isLabelError (error : Error) : Bool := error.cause.isLabelError

end Error
end Nmos6502.Assembly
