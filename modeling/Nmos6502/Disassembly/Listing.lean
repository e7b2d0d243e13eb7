import Nmos6502.Disassembly.Instruction

/-!
# Listings

A listing decodes one instruction after the other from a window of a buffer. A start address outside
the buffer is moved to the nearer end of it, and a stop address that is not behind the start or is
outside the buffer counts as the end of the buffer. The last instruction may run past the stop.
-/

set_option autoImplicit false

namespace Nmos6502.Disassembly

structure Window where
  base : UInt16 := 0
  start : Option UInt16 := none
  stop : Option UInt16 := none
  deriving DecidableEq, Repr

namespace Window

def bufferEnd (window : Window) (length : Nat) : Nat := window.base.toNat + length

def startAt (window : Window) (length : Nat) : Nat :=
  match window.start with
  | none => window.base.toNat
  | some start => min (max start.toNat window.base.toNat) (window.bufferEnd length)

def stopAt (window : Window) (length : Nat) : Nat :=
  match window.stop with
  | none => window.bufferEnd length
  | some stop =>
    if window.startAt length < stop.toNat ∧ stop.toNat ≤ window.bufferEnd length then stop.toNat
    else window.bufferEnd length

end Window

/-- Decodes instructions from `address` up to `stop` and puts them behind those in `done`; `bytes`
are the bytes from `address` on. -/
def decodeOnto (done : Array Instruction) (address stop : Nat) (bytes : List UInt8) :
    Array Instruction :=
  if address < stop then
    let instruction := Instruction.decode bytes (UInt16.ofNat address)
    decodeOnto (done.push instruction) (address + instruction.size) stop
      (bytes.drop instruction.size)
  else done
termination_by stop - address
decreasing_by
  have := (Instruction.decode bytes (UInt16.ofNat address)).size_pos
  omega

def listing (bytes : List UInt8) (window : Window) : List Instruction :=
  let start := window.startAt bytes.length
  (decodeOnto #[] start (window.stopAt bytes.length)
    (bytes.drop (start - window.base.toNat))).toList

def ofBytes (bytes : List UInt8) : List Instruction := listing bytes {}

def render (instructions : List Instruction) : String :=
  "\n".intercalate (instructions.map Instruction.line)

end Nmos6502.Disassembly
