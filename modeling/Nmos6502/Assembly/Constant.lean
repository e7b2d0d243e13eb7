import Nmos6502.Text.Split

/-!
# Constants

A constant stands for a text. In an operand, the constant defined first of those whose name occurs
anywhere is replaced by its value, once, at the first place where the name occurs.
-/

set_option autoImplicit false

namespace Nmos6502.Assembly

structure Constant where
  name : String
  value : String
  deriving DecidableEq, Repr

namespace Constant

/-- Adds a constant; a name that is defined already keeps its place and gets the new value. -/
def define (constant : Constant) : List Constant → List Constant
  | [] => [constant]
  | first :: rest =>
    if first.name = constant.name then constant :: rest else first :: define constant rest

def replaceIn? (constant : Constant) (operand : List Char) : Option (List Char) :=
  (Text.splitAround? constant.name.toList operand).map fun (before, rest) =>
    before ++ constant.value.toList ++ rest

/-- The operand after at most one replacement. -/
def substitute (constants : List Constant) (operand : List Char) : List Char :=
  (constants.findSome? fun constant => constant.replaceIn? operand).getD operand

end Constant
end Nmos6502.Assembly
