set_option autoImplicit false

namespace Nmos6502.Numeral

def digitValue? (c : Char) : Option Nat :=
  if '0' ≤ c ∧ c ≤ '9' then some (c.toNat - 48)
  else if 'A' ≤ c ∧ c ≤ 'F' then some (c.toNat - 55)
  else if 'a' ≤ c ∧ c ≤ 'f' then some (c.toNat - 87)
  else none

/-- A value with one more digit behind it, as long as it stays below 65536. -/
def append? (radix value : Nat) (c : Char) : Option Nat := do
  let digit ← digitValue? c
  if digit < radix ∧ value * radix + digit < 65536 then some (value * radix + digit) else none

def ofDigits? (radix : Nat) (digits : List Char) : Option UInt16 :=
  if digits.isEmpty then none else (digits.foldlM (append? radix) 0).map UInt16.ofNat

def value? : List Char → Option UInt16
  | '$' :: digits => ofDigits? 16 digits
  | '%' :: digits => ofDigits? 2 digits
  | digits => ofDigits? 10 digits

def byteValue? (text : List Char) : Option UInt8 := do
  let value ← value? text
  if value ≤ 0xFF then some value.toUInt8 else none

end Nmos6502.Numeral
