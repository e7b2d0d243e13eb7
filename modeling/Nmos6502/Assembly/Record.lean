import Nmos6502.Assembly.Error
import Nmos6502.Assembly.SymbolTable

set_option autoImplicit false

namespace Nmos6502.Assembly

inductive LabelUse where
  | branch
  | absolute
  | byte (selector : ByteSelector)
  deriving DecidableEq, Repr

inductive Argument where
  | none
  | value (value : UInt16)
  | label (name : String) (use : LabelUse)
  deriving DecidableEq, Repr

inductive Content where
  | origin
  | label (name : String)
  | constant (constant : String) (value : String)
  | data (bytes : List UInt8)
  | instruction (opcode : UInt8) (argument : Argument)
  deriving DecidableEq, Repr

structure Record where
  operation : String
  operand : String
  line : Nat
  address : UInt16
  /-- Number of bytes, modulo the size of the address space. -/
  size : UInt16
  content : Content
  deriving DecidableEq, Repr

def branchByte (source target : UInt16) : Except Cause UInt8 :=
  let offset := signedDistance source target
  if -128 ≤ offset ∧ offset ≤ 127 then .ok (lowByte (target - source))
  else .error (.branchOutOfRange offset)

namespace Record

def endAddress (record : Record) : UInt16 := record.address + record.size

def resolve (record : Record) (symbols : SymbolTable) : Argument → Except Cause UInt16
  | .none => .ok 0
  | .value value => .ok value
  | .label name use =>
    match symbols.lookup? name with
    | none => .error (.undefinedLabel name)
    | some symbol =>
      match use with
      | .branch => (branchByte record.endAddress symbol.address).map UInt8.toUInt16
      | .absolute => .ok symbol.address
      | .byte selector => .ok (selector.select symbol.address).toUInt16

def operandBytes (size : UInt16) (value : UInt16) : List UInt8 :=
  if size = 2 then [lowByte value]
  else if size = 3 then [lowByte value, highByte value]
  else []

def bytes (record : Record) (symbols : SymbolTable) : Except Cause (List UInt8) :=
  match record.content with
  | .instruction opcode argument =>
    (record.resolve symbols argument).map fun value => opcode :: operandBytes record.size value
  | .data bytes => .ok bytes
  | .origin | .label _ | .constant _ _ => .ok []

end Record
end Nmos6502.Assembly
