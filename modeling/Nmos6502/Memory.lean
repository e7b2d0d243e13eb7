import Nmos6502.Bus
import Nmos6502.Hex

set_option autoImplicit false

namespace Nmos6502

structure Memory where
  cells : Vector UInt8 65536

namespace Memory

def size : Nat := 65536

def zero : Memory := ⟨Vector.replicate 65536 0⟩

def read (memory : Memory) (address : UInt16) : UInt8 := memory.cells[address.toFin]

def write (memory : Memory) (address : UInt16) (value : UInt8) : Memory :=
  ⟨memory.cells.set address.toNat value address.toNat_lt⟩

instance : Bus Memory := ⟨read, write⟩

structure OutOfRange where
  address : UInt16
  length : Nat
  deriving DecidableEq, Repr

def OutOfRange.message (error : OutOfRange) : String :=
  s!"{error.length} bytes at ${Hex.word error.address} do not fit in 64KB of memory"

/-- Copies a block of bytes to an address, if it fits before the end: the answer, and the memory
afterwards. -/
def tryLoad (memory : Memory) (bytes : List UInt8) (address : UInt16) :
    Except OutOfRange Unit × Memory :=
  if h : address.toNat + bytes.length ≤ 65536 then
    let before := memory.cells.toArray.extract 0 address.toNat
    let after := memory.cells.toArray.extract (address.toNat + bytes.length) 65536
    (.ok (), ⟨⟨before ++ bytes.toArray ++ after, by simp [before, after]; omega⟩⟩)
  else (.error ⟨address, bytes.length⟩, memory)

def load (memory : Memory) (bytes : List UInt8) (address : UInt16) : Except OutOfRange Memory :=
  let result := memory.tryLoad bytes address
  result.1.map fun _ => result.2

/-- The bytes from an address on, going on at address 0 behind the last one. -/
def readBytes (memory : Memory) (address : UInt16) (count : Nat) : List UInt8 :=
  (List.range count).map fun i => memory.read (address + UInt16.ofNat i)

def snapshot (memory : Memory) : List UInt8 := memory.cells.toList

def tryRestore (memory : Memory) (image : List UInt8) : Except OutOfRange Unit × Memory :=
  memory.tryLoad image 0

/-- The memory with an image copied to its start; what the image does not cover stays. -/
def restore (memory : Memory) (image : List UInt8) : Except OutOfRange Memory :=
  memory.load image 0

def describe (_ : Memory) : String := s!"FlatMemory \x7b size: {size} \x7d"

@[simp]
theorem read_write_self (memory : Memory) (address : UInt16) (value : UInt8) :
    (memory.write address value).read address = value := by
  simp [read, write]

theorem read_write_other (memory : Memory) {address other : UInt16} (value : UInt8)
    (h : other ≠ address) : (memory.write address value).read other = memory.read other := by
  have hn : address.toNat ≠ other.toNat := fun e => h (UInt16.toNat_inj.mp e.symm)
  simp [read, write, hn]

end Memory
end Nmos6502
