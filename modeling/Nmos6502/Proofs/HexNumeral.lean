import Nmos6502.Hex
import Nmos6502.Numeral

set_option autoImplicit false

namespace Nmos6502

theorem Hex.forall_mem_byteDigits {p : Char → Prop} (h : ∀ n < 16, p (digit n)) (b : UInt8) :
    ∀ c ∈ byteDigits b, p c := by
  have hb := b.toNat_lt
  rw [byteDigits, List.forall_mem_cons, List.forall_mem_singleton]
  exact ⟨h _ (by omega), h _ (by omega)⟩

namespace Numeral

theorem digitValue?_digit {n : Nat} (h : n < 16) : digitValue? (Hex.digit n) = some n := by
  have all : ∀ m < 16, digitValue? (Hex.digit m) = some m := by decide
  exact all n h

theorem append?_digit (value : Nat) {n : Nat} (h : n < 16) (hfit : value * 16 + n < 65536) :
    append? 16 value (Hex.digit n) = some (value * 16 + n) := by
  simp [append?, digitValue?_digit h, h, hfit]

theorem foldlM_byteDigits (value : Nat) {b : UInt8} (hfit : value * 256 + b.toNat < 65536) :
    (Hex.byteDigits b).foldlM (append? 16) value = some (value * 256 + b.toNat) := by
  have hb := b.toNat_lt
  have high : append? 16 value (Hex.digit (b.toNat / 16)) = some (value * 16 + b.toNat / 16) :=
    append?_digit value (by omega) (by omega)
  have low : append? 16 (value * 16 + b.toNat / 16) (Hex.digit (b.toNat % 16)) =
      some ((value * 16 + b.toNat / 16) * 16 + b.toNat % 16) :=
    append?_digit _ (by omega) (by omega)
  simp only [Hex.byteDigits, List.foldlM_cons, List.foldlM_nil, high, low, Option.bind_eq_bind,
    Option.bind_some, Option.pure_def, Option.some.injEq]
  omega

theorem value?_byteDigits (b : UInt8) : value? ('$' :: Hex.byteDigits b) = some b.toUInt16 := by
  have hb := b.toNat_lt
  have hfold : (Hex.byteDigits b).foldlM (append? 16) 0 = some (0 * 256 + b.toNat) :=
    foldlM_byteDigits 0 (by omega)
  have hsome : (Hex.byteDigits b).isEmpty = false := rfl
  simp only [value?, ofDigits?, hsome, hfold, Bool.false_eq_true, if_false, Option.map_some,
    Option.some.injEq]
  apply UInt16.toNat_inj.mp
  simp

theorem value?_wordDigits (w : UInt16) : value? ('$' :: Hex.wordDigits w) = some w := by
  have hw := w.toNat_lt
  have hhigh := highByte_toNat w
  have hlow := lowByte_toNat w
  have fold : (Hex.wordDigits w).foldlM (append? 16) 0 = some w.toNat := by
    rw [Hex.wordDigits, List.foldlM_append, foldlM_byteDigits 0 (by omega)]
    change (Hex.byteDigits (lowByte w)).foldlM (append? 16) (0 * 256 + (highByte w).toNat) = _
    rw [foldlM_byteDigits _ (by omega), Option.some.injEq]
    omega
  have hsome : (Hex.wordDigits w).isEmpty = false := rfl
  simp [value?, ofDigits?, hsome, fold]

theorem byteDigits_inj {a b : UInt8} : Hex.byteDigits a = Hex.byteDigits b ↔ a = b := by
  refine ⟨fun h => ?_, congrArg Hex.byteDigits⟩
  have hvalue := value?_byteDigits a
  rw [h, value?_byteDigits, Option.some.injEq] at hvalue
  rw [← UInt8.toUInt8_toUInt16 a, ← hvalue, UInt8.toUInt8_toUInt16]

theorem wordDigits_inj {v w : UInt16} : Hex.wordDigits v = Hex.wordDigits w ↔ v = w := by
  refine ⟨fun h => ?_, congrArg Hex.wordDigits⟩
  have hvalue := value?_wordDigits v
  rw [h, value?_wordDigits, Option.some.injEq] at hvalue
  exact hvalue.symm

theorem toUInt16_le_byte (b : UInt8) : b.toUInt16 ≤ 0xFF := by
  have hb := b.toNat_lt
  simp only [UInt16.le_iff_toNat_le, UInt8.toNat_toUInt16]
  change b.toNat ≤ 255
  omega

theorem toUInt16_toUInt8 {w : UInt16} (h : w ≤ 0xFF) : w.toUInt8.toUInt16 = w := by
  have hw : w.toNat ≤ 255 := UInt16.le_iff_toNat_le.mp h
  apply UInt16.toNat_inj.mp
  rw [UInt8.toNat_toUInt16, UInt16.toNat_toUInt8]
  omega

theorem byteValue?_eq_some_iff {text : List Char} {b : UInt8} :
    byteValue? text = some b ↔ value? text = some b.toUInt16 := by
  cases hvalue : value? text with
  | none => simp [byteValue?, hvalue]
  | some w =>
    simp only [byteValue?, hvalue, Option.bind_eq_bind, Option.bind_some, Option.some.injEq]
    constructor
    · intro h
      split at h
      · rename_i hbyte
        cases h
        exact (toUInt16_toUInt8 hbyte).symm
      · cases h
    · rintro rfl
      rw [if_pos (toUInt16_le_byte b), UInt8.toUInt8_toUInt16]

end Numeral
end Nmos6502
