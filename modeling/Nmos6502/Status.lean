set_option autoImplicit false

namespace Nmos6502

structure Status where
  negative : Bool := false
  overflow : Bool := false
  /-- A flag without a meaning, set at power-up. -/
  unused : Bool := false
  /-- Set by a software interrupt. -/
  breakFlag : Bool := false
  decimal : Bool := false
  interruptDisable : Bool := false
  zero : Bool := false
  carry : Bool := false
  deriving DecidableEq, Repr

namespace Status

def bit (flag : Bool) (value : UInt8) : UInt8 := if flag then value else 0

def toByte (status : Status) : UInt8 :=
  bit status.negative 0x80 + bit status.overflow 0x40 + bit status.unused 0x20 +
    bit status.breakFlag 0x10 + bit status.decimal 0x08 + bit status.interruptDisable 0x04 +
    bit status.zero 0x02 + bit status.carry 0x01

def ofByte (b : UInt8) : Status where
  negative := b &&& 0x80 != 0
  overflow := b &&& 0x40 != 0
  unused := b &&& 0x20 != 0
  breakFlag := b &&& 0x10 != 0
  decimal := b &&& 0x08 != 0
  interruptDisable := b &&& 0x04 != 0
  zero := b &&& 0x02 != 0
  carry := b &&& 0x01 != 0

theorem ofByte_toByte (status : Status) : ofByte status.toByte = status := by
  obtain ⟨n, v, u, b, d, i, z, c⟩ := status
  cases n <;> cases v <;> cases u <;> cases b <;> cases d <;> cases i <;> cases z <;> cases c
  all_goals rfl

set_option maxRecDepth 4000 in
theorem toByte_ofByte (b : UInt8) : (ofByte b).toByte = b := by
  have all : ∀ i : Fin 256, (ofByte (UInt8.ofFin i)).toByte = UInt8.ofFin i := by decide
  exact all b.toFin

def isNegative (b : UInt8) : Bool := decide (0x80 ≤ b)

def withResult (status : Status) (result : UInt8) : Status :=
  { status with zero := result == 0, negative := isNegative result }

def pushed (status : Status) : UInt8 :=
  ({ status with breakFlag := true, unused := true } : Status).toByte

/-- The flags that a pulled byte gives: the unused flag is always set. -/
def pulled (b : UInt8) : Status := { ofByte b with unused := true }

end Status
end Nmos6502
