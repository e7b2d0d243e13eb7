set_option autoImplicit false

namespace Nmos6502

def lowByte (w : UInt16) : UInt8 := w.toUInt8

def highByte (w : UInt16) : UInt8 := (w / 256).toUInt8

def word (low high : UInt8) : UInt16 := low.toUInt16 + high.toUInt16 * 256

theorem lowByte_toNat (w : UInt16) : (lowByte w).toNat = w.toNat % 256 := by
  simp [lowByte]

theorem highByte_toNat (w : UInt16) : (highByte w).toNat = w.toNat / 256 := by
  have := w.toNat_lt
  simp [highByte]
  omega

theorem word_toNat (low high : UInt8) :
    (word low high).toNat = low.toNat + 256 * high.toNat := by
  have := low.toNat_lt
  have := high.toNat_lt
  simp [word]
  omega

@[simp]
theorem lowByte_word (low high : UInt8) : lowByte (word low high) = low := by
  apply UInt8.toNat_inj.mp
  have := low.toNat_lt
  rw [lowByte_toNat, word_toNat]
  omega

@[simp]
theorem highByte_word (low high : UInt8) : highByte (word low high) = high := by
  apply UInt8.toNat_inj.mp
  have := low.toNat_lt
  rw [highByte_toNat, word_toNat]
  omega

@[simp]
theorem word_lowByte_highByte (w : UInt16) : word (lowByte w) (highByte w) = w := by
  apply UInt16.toNat_inj.mp
  rw [word_toNat, lowByte_toNat, highByte_toNat]
  omega

theorem word_inj {low high low' high' : UInt8} :
    word low high = word low' high' ↔ low = low' ∧ high = high' := by
  refine ⟨fun h => ?_, fun ⟨hlow, hhigh⟩ => hlow ▸ hhigh ▸ rfl⟩
  have hlow := congrArg lowByte h
  have hhigh := congrArg highByte h
  rw [lowByte_word, lowByte_word] at hlow
  rw [highByte_word, highByte_word] at hhigh
  exact ⟨hlow, hhigh⟩

def samePage (a b : UInt16) : Bool := highByte a == highByte b

def signExtend (b : UInt8) : UInt16 := if b < 128 then b.toUInt16 else b.toUInt16 + 0xFF00

/-- The signed distance from one address to another, the short way round the address space. -/
def signedDistance (source target : UInt16) : Int :=
  let d := (target - source).toNat
  if d < 32768 then d else (d : Int) - 65536

end Nmos6502
