import Mathlib.Data.Nat.Digits.Defs
import Nmos6502.Status
import Nmos6502.Word

set_option autoImplicit false

namespace Nmos6502

/-- The number that bytes stand for, the low one first. -/
def littleEndian : List UInt8 → Nat
  | [] => 0
  | b :: bs => b.toNat + 256 * littleEndian bs

theorem littleEndian_word (w : UInt16) : littleEndian [lowByte w, highByte w] = w.toNat := by
  simp only [littleEndian, lowByte_toNat, highByte_toNat]
  omega

theorem littleEndian_byte {w : UInt16} (h : w ≤ 0xFF) : littleEndian [lowByte w] = w.toNat := by
  have hle := UInt16.le_iff_toNat_le.mp h
  change w.toNat ≤ 255 at hle
  simp only [littleEndian, lowByte_toNat]
  omega

/-- The number that bytes stand for in two's complement. -/
def signedLittleEndian (bytes : List UInt8) : Int :=
  if 2 * littleEndian bytes < 256 ^ bytes.length then littleEndian bytes
  else littleEndian bytes - 256 ^ bytes.length

def FitsSigned (length : Nat) (number : Int) : Prop :=
  -256 ^ length ≤ 2 * number ∧ 2 * number < 256 ^ length

instance (length : Nat) (number : Int) : Decidable (FitsSigned length number) :=
  inferInstanceAs (Decidable (_ ∧ _))

def IsDecimal (b : UInt8) : Prop := b.toNat / 16 ≤ 9 ∧ b.toNat % 16 ≤ 9

instance (b : UInt8) : Decidable (IsDecimal b) := inferInstanceAs (Decidable (_ ∧ _))

def decimalByte (b : UInt8) : Nat := b.toNat / 16 * 10 + b.toNat % 16

def decimalNumber (bytes : List UInt8) : Nat := Nat.ofDigits 100 (bytes.map decimalByte)

theorem littleEndian_eq_ofDigits (bytes : List UInt8) :
    littleEndian bytes = Nat.ofDigits 256 (bytes.map UInt8.toNat) := by
  induction bytes with
  | nil => rfl
  | cons b bs ih => rw [littleEndian, ih, List.map_cons, Nat.ofDigits_cons]

theorem littleEndian_lt (bytes : List UInt8) : littleEndian bytes < 256 ^ bytes.length := by
  induction bytes with
  | nil => decide
  | cons b bs ih =>
    have hb := b.toNat_lt
    rw [littleEndian, List.length_cons, Nat.pow_succ]
    omega

theorem even_pow_length {α : Type} {bytes : List α} (h : bytes ≠ []) :
    256 ^ bytes.length % 2 = 0 := by
  obtain ⟨b, bs, rfl⟩ := List.exists_cons_of_ne_nil h
  rw [List.length_cons, Nat.pow_succ]
  omega

theorem littleEndian_complement (bytes : List UInt8) :
    littleEndian (bytes.map (~~~ ·)) + littleEndian bytes + 1 = 256 ^ bytes.length := by
  induction bytes with
  | nil => rfl
  | cons b bs ih =>
    have hb := b.toNat_lt
    have hnot : (~~~b).toNat = 255 - b.toNat := by simp
    rw [List.map_cons, littleEndian, littleEndian, List.length_cons, Nat.pow_succ, hnot]
    omega

theorem signedLittleEndian_complement {bytes : List UInt8} (h : bytes ≠ []) :
    signedLittleEndian (bytes.map (~~~ ·)) = -signedLittleEndian bytes - 1 := by
  have hcomplement := littleEndian_complement bytes
  have heven := even_pow_length h
  have hplace : ((256 ^ bytes.length : Nat) : Int) = 256 ^ bytes.length := by norm_cast
  simp only [signedLittleEndian, List.length_map]
  rw [← hplace]
  split <;> split <;> omega

theorem isNegative_highest_iff {bytes : List UInt8} (h : bytes ≠ []) (lower : Bool) :
    (bytes.map Status.isNegative).getLastD lower = true ↔
      256 ^ bytes.length ≤ 2 * littleEndian bytes := by
  induction bytes generalizing lower with
  | nil => exact absurd rfl h
  | cons b bs ih =>
    have hb := b.toNat_lt
    rw [List.map_cons, List.getLastD_cons, littleEndian, List.length_cons, Nat.pow_succ]
    cases bs with
    | nil =>
      have hsign : Status.isNegative b = true ↔ 128 ≤ b.toNat := decide_eq_true_iff
      simp only [List.map_nil, List.getLastD_nil, hsign, littleEndian, List.length_nil]
      omega
    | cons second rest =>
      have heven := even_pow_length (List.cons_ne_nil second rest)
      rw [ih (List.cons_ne_nil second rest)]
      omega

end Nmos6502
