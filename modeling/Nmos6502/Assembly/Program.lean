import Nmos6502.Assembly.Layout
import Nmos6502.Log

set_option autoImplicit false

namespace Nmos6502.Assembly

/-- Records in source order, with the labels and constants that the source declares. -/
structure Program where
  records : List Record
  symbols : SymbolTable
  constants : List Constant

namespace Program

def ofSource (base : UInt16) (source : List Char) : Except Error Program := do
  let layout ← Layout.addLines { cursor := base } ((Text.lines source).zipIdx 1)
  return {
    records := layout.records.toList
    symbols := layout.symbols
    constants := layout.constants }

def chunk (program : Program) (record : Record) : Except Error (List UInt8) :=
  (record.bytes program.symbols).mapError (Error.mk record.line)

def code (program : Program) : Except Error (List UInt8) := do
  let chunks ← program.records.mapM program.chunk
  return chunks.flatten

def summary (program : Program) : Log.Entry :=
  let labels := s!"{program.records.length} records, {program.symbols.size} labels"
  ⟨.debug, s!"pass 1: {labels}, {program.constants.length} constants"⟩

end Program

def codeSummary (code : List UInt8) : Log.Entry :=
  ⟨.debug, s!"pass 2: emitted {code.length} bytes"⟩

end Nmos6502.Assembly
