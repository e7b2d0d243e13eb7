set_option autoImplicit false

namespace Nmos6502.Assembly

structure Symbol where
  name : String
  address : UInt16
  line : Nat
  deriving DecidableEq, Repr

/-- The order in which symbols are listed: by address, then by name. -/
def Symbol.listedBefore (a b : Symbol) : Bool :=
  a.address < b.address || (a.address == b.address && !(b.name < a.name))

structure SymbolTable where
  entries : Array Symbol := #[]
  deriving DecidableEq, Repr

namespace SymbolTable

def lookup? (table : SymbolTable) (name : String) : Option Symbol :=
  table.entries.find? fun symbol => symbol.name == name

/-- The table with one more symbol, or the symbol that has the name already. -/
def add? (table : SymbolTable) (symbol : Symbol) : Except Symbol SymbolTable :=
  match table.lookup? symbol.name with
  | some first => .error first
  | none => .ok { entries := table.entries.push symbol }

def size (table : SymbolTable) : Nat := table.entries.size

def sorted (table : SymbolTable) : List Symbol :=
  table.entries.toList.mergeSort Symbol.listedBefore

end SymbolTable
end Nmos6502.Assembly
