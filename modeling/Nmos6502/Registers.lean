import Nmos6502.Arithmetic

set_option autoImplicit false

namespace Nmos6502

/-- The registers. Their defaults are the values at power-up. -/
structure Registers where
  a : UInt8 := 0
  x : UInt8 := 0
  y : UInt8 := 0
  status : Status := { unused := true }
  sp : UInt8 := 0xFF
  pc : UInt16 := 0
  deriving DecidableEq, Repr

namespace Registers

def setA (r : Registers) (value : UInt8) : Registers :=
  { r with a := value, status := r.status.withResult value }

def setX (r : Registers) (value : UInt8) : Registers :=
  { r with x := value, status := r.status.withResult value }

def setY (r : Registers) (value : UInt8) : Registers :=
  { r with y := value, status := r.status.withResult value }

def setSum (r : Registers) (sum : Arithmetic.Sum) : Registers :=
  let status := { r.status with carry := sum.carry, overflow := sum.overflow }
  { r with status }.setA sum.result

def add (r : Registers) (b : UInt8) : Registers :=
  r.setSum <|
    if r.status.decimal then Arithmetic.addDecimal r.a b r.status.carry
    else Arithmetic.add r.a b r.status.carry

def subtract (r : Registers) (b : UInt8) : Registers :=
  r.setSum <|
    if r.status.decimal then Arithmetic.subtractDecimal r.a b r.status.carry
    else Arithmetic.subtract r.a b r.status.carry

def compare (r : Registers) (register b : UInt8) : Registers :=
  { r with status := { r.status with carry := decide (b ≤ register) }.withResult (register - b) }

/-- Tests the bits of a byte that the accumulator has, and shows its two highest bits. -/
def testBits (r : Registers) (b : UInt8) : Registers :=
  { r with
    status := { r.status with
      zero := r.a &&& b == 0
      negative := b &&& 0x80 != 0
      overflow := b &&& 0x40 != 0 } }

def mapStatus (r : Registers) (f : Status → Status) : Registers := { r with status := f r.status }

end Registers
end Nmos6502
