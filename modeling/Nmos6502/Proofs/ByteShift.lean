import Mathlib.Data.Nat.Digits.Lemmas
import Nmos6502.Arithmetic
import Nmos6502.Proofs.ByteNumber

set_option autoImplicit false

namespace Nmos6502

theorem littleEndian_inj {first second : List UInt8} (hlength : first.length = second.length)
    (h : littleEndian first = littleEndian second) : first = second := by
  have hdigits : ∀ bytes : List UInt8, ∀ digit ∈ bytes.map UInt8.toNat, digit < 256 :=
    fun bytes => List.forall_mem_map.mpr fun b _ => b.toNat_lt
  rw [littleEndian_eq_ofDigits, littleEndian_eq_ofDigits] at h
  exact List.map_injective_iff.mpr (fun _ _ => UInt8.toNat_inj.mp)
    (Nat.ofDigits_inj_of_len_eq (by decide) (by simpa using hlength) (hdigits _) (hdigits _) h)

namespace Arithmetic

/-- Bytes shifted one after the other, each with the bit that fell out of the one before, and the
bit that falls out of the last. -/
def shiftAll (f : Bool → UInt8 → UInt8 × Bool) : Bool → List UInt8 → List UInt8 × Bool
  | carry, [] => ([], carry)
  | carry, b :: rest =>
    let shifted := f carry b
    let others := shiftAll f shifted.2 rest
    (shifted.1 :: others.1, others.2)

theorem shiftAll_append (f : Bool → UInt8 → UInt8 × Bool) (carry : Bool)
    (first second : List UInt8) :
    shiftAll f carry (first ++ second) =
      ((shiftAll f carry first).1 ++ (shiftAll f (shiftAll f carry first).2 second).1,
        (shiftAll f (shiftAll f carry first).2 second).2) := by
  induction first generalizing carry with
  | nil => rfl
  | cons b rest ih => rw [List.cons_append, shiftAll, shiftAll, ih, List.cons_append]

theorem length_shiftAll (f : Bool → UInt8 → UInt8 × Bool) (carry : Bool) (bytes : List UInt8) :
    (shiftAll f carry bytes).1.length = bytes.length := by
  induction bytes generalizing carry with
  | nil => rfl
  | cons b rest ih => rw [shiftAll, List.length_cons, List.length_cons, ih]

theorem shiftLeft_toNat (carry : Bool) (b : UInt8) :
    (shiftLeft carry b).1.toNat + 256 * (shiftLeft carry b).2.toNat = 2 * b.toNat + carry.toNat := by
  have hb := b.toNat_lt
  have hsign : Status.isNegative b = decide (128 ≤ b.toNat) := rfl
  have hin : (if carry = true then 1 else 0 : UInt8).toNat = carry.toNat := by cases carry <;> rfl
  have hcarry := carry.toNat_le
  simp only [shiftLeft, UInt8.toNat_add, UInt8.toNat_mul, hin, hsign]
  by_cases h : 128 ≤ b.toNat
  · simp only [h, decide_true, Bool.toNat_true, UInt8.reduceToNat]
    omega
  · simp only [h, decide_false, Bool.toNat_false, UInt8.reduceToNat]
    omega

theorem shiftRight_toNat (carry : Bool) (b : UInt8) :
    2 * (shiftRight carry b).1.toNat + (shiftRight carry b).2.toNat =
      b.toNat + 256 * carry.toNat := by
  have hb := b.toNat_lt
  have hin : (if carry = true then 0x80 else 0 : UInt8).toNat = 128 * carry.toNat := by
    cases carry <;> rfl
  have hlowest : (b % 2 == 1) = decide (b.toNat % 2 = 1) := by
    rw [beq_eq_decide]
    exact decide_eq_decide.mpr UInt8.toNat_inj.symm
  have hcarry := carry.toNat_le
  simp only [shiftRight, UInt8.toNat_add, UInt8.toNat_div, hin, hlowest]
  by_cases h : b.toNat % 2 = 1
  · simp only [h, decide_true, Bool.toNat_true, UInt8.reduceToNat]
    omega
  · simp only [h, decide_false, Bool.toNat_false, UInt8.reduceToNat]
    omega

theorem littleEndian_shiftLeft (carry : Bool) (bytes : List UInt8) :
    littleEndian (shiftAll shiftLeft carry bytes).1 +
        256 ^ bytes.length * (shiftAll shiftLeft carry bytes).2.toNat =
      2 * littleEndian bytes + carry.toNat := by
  induction bytes generalizing carry with
  | nil => simp [shiftAll, littleEndian]
  | cons b rest ih =>
    -- what falls out of this byte comes into the ones above it
    have hbyte := shiftLeft_toNat carry b
    have habove := ih (shiftLeft carry b).2
    rw [shiftAll, littleEndian, littleEndian, List.length_cons, Nat.pow_succ]
    dsimp only
    rw [Nat.mul_right_comm]
    omega

theorem littleEndian_shiftRight (carry : Bool) (bytes : List UInt8) :
    2 * littleEndian (shiftAll shiftRight carry bytes.reverse).1.reverse +
        (shiftAll shiftRight carry bytes.reverse).2.toNat =
      littleEndian bytes + 256 ^ bytes.length * carry.toNat := by
  induction bytes with
  | nil => simp [shiftAll, littleEndian]
  | cons b rest ih =>
    -- the bytes above this one come first, and what falls out of them comes into it
    have hbyte := shiftRight_toNat (shiftAll shiftRight carry rest.reverse).2 b
    rw [List.reverse_cons, shiftAll_append]
    simp only [shiftAll, List.reverse_append, List.reverse_singleton, List.singleton_append,
      littleEndian, List.length_cons, Nat.pow_succ]
    rw [Nat.mul_right_comm]
    omega

theorem shiftAll_shiftLeft_carry (carry : Bool) (bytes : List UInt8) :
    (shiftAll shiftLeft carry bytes).2 = (bytes.map Status.isNegative).getLastD carry := by
  induction bytes generalizing carry with
  | nil => rfl
  | cons b rest ih => rw [shiftAll, List.map_cons, List.getLastD_cons, ih, shiftLeft]

theorem shiftRight_shiftLeft (carry : Bool) (bytes : List UInt8) :
    shiftAll shiftRight (shiftAll shiftLeft carry bytes).2
        (shiftAll shiftLeft carry bytes).1.reverse =
      (bytes.reverse, carry) := by
  have hdoubled := littleEndian_shiftLeft carry bytes
  have hlength := length_shiftAll shiftLeft carry bytes
  generalize shiftAll shiftLeft carry bytes = doubled at hdoubled hlength ⊢
  have hhalved := littleEndian_shiftRight doubled.2 doubled.1
  rw [hlength, hdoubled] at hhalved
  have hsame := length_shiftAll shiftRight doubled.2 doubled.1.reverse
  rw [List.length_reverse, hlength] at hsame
  generalize shiftAll shiftRight doubled.2 doubled.1.reverse = halved at hhalved hsame ⊢
  have hin := carry.toNat_le
  have hout := halved.2.toNat_le
  have hbytes : halved.1.reverse = bytes :=
    littleEndian_inj (by rw [List.length_reverse, hsame]) (by omega)
  have hcarry : halved.2 = carry := by
    rw [Bool.eq_iff_iff, ← Bool.toNat_eq_one, ← Bool.toNat_eq_one]
    omega
  rw [← hbytes, List.reverse_reverse, ← hcarry]

end Arithmetic
end Nmos6502
