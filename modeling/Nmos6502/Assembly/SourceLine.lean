import Nmos6502.Label
import Nmos6502.Text.Blank
import Nmos6502.Text.Split
import Nmos6502.Text.Upper

/-!
# Source lines

A line may declare a label and may hold a statement. Comments are cut off first; the name of a label
is read in ASCII upper case, the statement in full upper case.
-/

set_option autoImplicit false

namespace Nmos6502.Assembly

/-- What a line asks for: its first word and the rest. -/
inductive Statement where
  | empty
  | origin (word operand : List Char)
  | data (word operand : List Char)
  | constant (word operand : List Char)
  | instruction (word operand : List Char)
  deriving DecidableEq, Repr

def originWords : List (List Char) := [['O', 'R', 'G'], ['.', 'O', 'R', 'G']]

def dataWords : List (List Char) := [['D', 'C', 'B'], ['.', 'B', 'Y', 'T', 'E'], ['D', 'B']]

def constantWords : List (List Char) := [['D', 'E', 'F', 'I', 'N', 'E'], ['D', 'E', 'F']]

namespace Statement

def splitWord (text : List Char) : List Char × List Char :=
  match Text.splitFirst? Text.isBlank text with
  | some (word, operand) => (word, Text.trim operand)
  | none => (text, [])

def ofWord (word operand : List Char) : Statement :=
  if word ∈ originWords then origin word operand
  else if word ∈ dataWords then data word operand
  else if word ∈ constantWords then constant word operand
  else instruction word operand

def ofUpper : List Char → Statement
  | [] => empty
  | '*' :: '=' :: operand => origin ['*', '='] (Text.trim operand)
  | text => ofWord (splitWord text).1 (splitWord text).2

def ofText (text : List Char) : Statement := ofUpper (Text.upper (Text.trim text))

end Statement

structure SourceLine where
  label : Option (List Char)
  statement : Statement
  deriving DecidableEq, Repr

namespace SourceLine

def stripComment (text : List Char) : List Char :=
  match Text.splitUnquoted? ';' text with
  | some (code, _) => code
  | none => text

def labelName? (head : List Char) : Option (List Char) :=
  let name := (Text.trim head).map Char.toUpper
  if Label.isName name then some name else none

/-- The label in front of the first colon and the text behind it; if there is no name in front of
the colon, all of the text is a statement. -/
def splitLabel (text : List Char) : Option (List Char) × List Char :=
  match Text.splitFirst? (· == ':') text with
  | some (head, rest) =>
    match labelName? head with
    | some name => (some name, rest)
    | none => (none, text)
  | none => (none, text)

def ofText (text : List Char) : SourceLine :=
  let (label, rest) := splitLabel (stripComment text)
  { label, statement := Statement.ofText rest }

end SourceLine
end Nmos6502.Assembly
