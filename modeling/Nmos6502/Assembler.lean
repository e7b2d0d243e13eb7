import Nmos6502.Assembly.Program

set_option autoImplicit false

namespace Nmos6502

structure Assembler where
  base : UInt16 := 0
  deriving DecidableEq, Repr

namespace Assembler
open Assembly

/-- The first pass alone: records and labels. -/
def parse (assembler : Assembler) (source : String) : Except Error Program :=
  Program.ofSource assembler.base source.toList

def assemble (assembler : Assembler) (source : String) : Except Error (List UInt8) := do
  let program ← assembler.parse source
  program.code

def parseLog (assembler : Assembler) (source : String) : List Log.Entry :=
  match assembler.parse source with
  | .error _ => []
  | .ok program => [program.summary]

def assembleLog (assembler : Assembler) (source : String) : List Log.Entry :=
  match assembler.parse source with
  | .error _ => []
  | .ok program =>
    match program.code with
    | .error _ => [program.summary]
    | .ok code => [program.summary, codeSummary code]

end Assembler
end Nmos6502
