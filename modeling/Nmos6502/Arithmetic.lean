import Nmos6502.Status

set_option autoImplicit false

namespace Nmos6502.Arithmetic

structure Sum where
  result : UInt8
  carry : Bool
  overflow : Bool
  deriving DecidableEq, Repr

/-- Whether two numbers of one sign have a sum of the other sign. -/
def signLost (a b sum : UInt8) : Bool :=
  Status.isNegative a == Status.isNegative b && Status.isNegative a != Status.isNegative sum

def add (a b : UInt8) (carry : Bool) : Sum :=
  let sum := a.toNat + b.toNat + carry.toNat
  let result := UInt8.ofNat sum
  { result, carry := decide (255 < sum), overflow := signLost a b result }

def subtract (a b : UInt8) (carry : Bool) : Sum := add a (~~~b) carry

/-- Decimal addition: a digit above nine is corrected and carries into the next one. Overflow is
judged before the high digit is corrected. -/
def addDecimal (a b : UInt8) (carry : Bool) : Sum :=
  let units := a.toNat % 16 + b.toNat % 16 + carry.toNat
  let halfCarry := decide (9 < units)
  let low := if halfCarry then (units + 6) % 16 else units
  let tens := a.toNat / 16 + b.toNat / 16 + halfCarry.toNat
  let high := if 9 < tens then (tens + 6) % 16 else tens
  { result := UInt8.ofNat (high * 16 + low)
    carry := decide (9 < tens)
    overflow := signLost a b (UInt8.ofNat (tens * 16 + low)) }

/-- Decimal subtraction: a digit below zero is corrected and borrows from the next one. Carry and
overflow are those of the binary subtraction. -/
def subtractDecimal (a b : UInt8) (carry : Bool) : Sum :=
  let borrow : Int := if carry then 0 else 1
  let difference : Int := a.toNat - b.toNat - borrow
  let units : Int := (a.toNat % 16 : Nat) - (b.toNat % 16 : Nat) - borrow
  let tens : Int := (a.toNat / 16 : Nat) - (b.toNat / 16 : Nat) - (if units < 0 then 1 else 0)
  let low := if units < 0 then units + 10 else units
  let high := if tens < 0 then tens + 10 else tens
  { result := UInt8.ofNat ((high % 16).toNat * 16 + (low % 16).toNat)
    carry := decide (0 ≤ difference)
    overflow := signLost a (~~~b) (UInt8.ofNat (difference % 256).toNat) }

def shiftLeft (carry : Bool) (b : UInt8) : UInt8 × Bool :=
  (b * 2 + (if carry then 1 else 0), Status.isNegative b)

def shiftRight (carry : Bool) (b : UInt8) : UInt8 × Bool :=
  (b / 2 + (if carry then 0x80 else 0), b % 2 == 1)

end Nmos6502.Arithmetic
