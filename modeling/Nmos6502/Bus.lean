import Nmos6502.Word

set_option autoImplicit false

namespace Nmos6502

class Bus (M : Type) where
  read : M → UInt16 → UInt8
  write : M → UInt16 → UInt8 → M

namespace Bus

variable {M : Type} [Bus M]

def readWord (memory : M) (address : UInt16) : UInt16 :=
  word (read memory address) (read memory (address + 1))

def writeWord (memory : M) (address value : UInt16) : M :=
  write (write memory address (lowByte value)) (address + 1) (highByte value)

end Bus
end Nmos6502
