import Nmos6502.Word

set_option autoImplicit false

namespace Nmos6502.Hex

def digit (n : Nat) : Char := Char.ofNat (if n < 10 then 48 + n else 55 + n)

def byteDigits (b : UInt8) : List Char := [digit (b.toNat / 16), digit (b.toNat % 16)]

def wordDigits (w : UInt16) : List Char := byteDigits (highByte w) ++ byteDigits (lowByte w)

def byte (b : UInt8) : String := String.ofList (byteDigits b)

def word (w : UInt16) : String := String.ofList (wordDigits w)

def bytes (bs : List UInt8) : String := String.ofList (bs.flatMap byteDigits)

end Nmos6502.Hex
