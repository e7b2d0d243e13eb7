import Mathlib.Algebra.BigOperators.Ring.List
import Mathlib.Algebra.Order.BigOperators.Group.List
import Mathlib.Data.Nat.ModEq
import Mathlib.Tactic.Linarith
import Nmos6502.Pacing

set_option autoImplicit false

namespace Nmos6502

/-- Quotients rounded down add up to at most the quotient of the sum, and fall short of it by less
than one for each. -/
theorem sum_div_bounds {divisor : Nat} (hpos : 0 < divisor) (numbers : List Nat) :
    (numbers.map (· / divisor)).sum ≤ numbers.sum / divisor ∧
      numbers.sum / divisor ≤ (numbers.map (· / divisor)).sum + (numbers.length - 1) := by
  induction numbers with
  | nil => simp
  | cons number rest ih =>
    have hsplit := Nat.add_div hpos (a := number) (b := rest.sum)
    simp only [List.map_cons, List.sum_cons, List.length_cons]
    cases rest with
    | nil => simp
    | cons second others =>
      rw [List.length_cons] at ih ⊢
      split at hsplit <;> omega

namespace Pacing

theorem cyclesPerBatch_mono {slow fast : Pacing} (hrate : slow.cyclesPerSecond ≤ fast.cyclesPerSecond)
    (hnanos : slow.batchNanos ≤ fast.batchNanos)
    (hfits : fast.cyclesPerSecond.toNat * fast.batchNanos / nanosPerSecond < 2 ^ 64) :
    slow.cyclesPerBatch ≤ fast.cyclesPerBatch := by
  have hless : slow.cyclesPerSecond.toNat * slow.batchNanos / nanosPerSecond ≤
      fast.cyclesPerSecond.toNat * fast.batchNanos / nanosPerSecond :=
    Nat.div_le_div_right (Nat.mul_le_mul (UInt64.le_iff_toNat_le.mp hrate) hnanos)
  rw [UInt64.le_iff_toNat_le, fast.cyclesPerBatch_eq hfits,
    slow.cyclesPerBatch_eq (Nat.lt_of_le_of_lt hless hfits)]
  omega

/-- The cycles of a batch are a whole number of which the low 64 bits count, and at least one. Where
all of them count, this is the number itself and grows with the clock rate and the length of the
batch; beyond, it is the largest number of 64 bits only if those bits are all set. -/
theorem cyclesPerBatch_low_bits (pacing : Pacing)
    (hproduct : pacing.cyclesPerSecond.toNat * pacing.batchNanos < 2 ^ 128) :
    let cycles := pacing.cyclesPerSecond.toNat * pacing.batchNanos / 1000000000
    pacing.cyclesPerBatch.toNat = max 1 (cycles % 2 ^ 64) ∧
      (pacing.cyclesPerBatch.toNat = max 1 (min cycles (2 ^ 64 - 1)) ↔
        cycles < 2 ^ 64 ∨ cycles % 2 ^ 64 = 2 ^ 64 - 1) ∧
      (cycles < 2 ^ 64 → ∀ slower : Pacing, slower.cyclesPerSecond ≤ pacing.cyclesPerSecond →
        slower.batchNanos ≤ pacing.batchNanos →
          slower.cyclesPerBatch ≤ pacing.cyclesPerBatch) := by
  intro cycles
  have hvalue : pacing.cyclesPerBatch.toNat = max 1 (cycles % 2 ^ 64) :=
    pacing.cyclesPerBatch_toNat hproduct
  refine ⟨hvalue, ?_, fun hfits slower hrate hnanos => cyclesPerBatch_mono hrate hnanos hfits⟩
  rw [hvalue]
  omega

theorem cyclesPerBatch_low_bits_largest :
    let fast : Pacing := { cyclesPerSecond := 0xFFFFFFFFFFFFFFFF, batchNanos := 1000000000 }
    let slow : Pacing := { cyclesPerSecond := 0x8000000000000000, batchNanos := 1000000000 }
    fast.cyclesPerSecond.toNat * fast.batchNanos < 2 ^ 128 ∧
      fast.cyclesPerSecond.toNat * fast.batchNanos / 1000000000 < 2 ^ 64 ∧
        fast.cyclesPerBatch.toNat = 2 ^ 64 - 1 ∧ slow.cyclesPerBatch ≤ fast.cyclesPerBatch := by
  intro fast slow
  have hproduct : fast.cyclesPerSecond.toNat * fast.batchNanos < 2 ^ 128 := by decide
  have hfits : fast.cyclesPerSecond.toNat * fast.batchNanos / 1000000000 < 2 ^ 64 := by decide
  obtain ⟨hvalue, -, hmono⟩ := cyclesPerBatch_low_bits fast hproduct
  exact ⟨hproduct, hfits, hvalue.trans (by decide), hmono hfits slow (by decide) (by decide)⟩

/-- A batch of twice the length, with one cycle: its cycles are one more than 64 bits can hold. -/
theorem cyclesPerBatch_collapses :
    let short : Pacing := { cyclesPerSecond := 0x8000000000000000, batchNanos := 1000000000 }
    let long : Pacing := { cyclesPerSecond := 0x8000000000000000, batchNanos := 2000000000 }
    long.cyclesPerSecond.toNat * long.batchNanos < 2 ^ 128 ∧
      short.cyclesPerSecond ≤ long.cyclesPerSecond ∧ short.batchNanos ≤ long.batchNanos ∧
        short.cyclesPerBatch = 0x8000000000000000 ∧ long.cyclesPerBatch = 1 ∧
          ¬ short.cyclesPerBatch ≤ long.cyclesPerBatch := by
  decide

theorem quota_duration {pacing : Pacing} (hrate : 1 ≤ pacing.cyclesPerSecond.toNat)
    (hlength : pacing.batchNanos < 2 ^ 64)
    (hsome : 1 ≤ pacing.cyclesPerSecond.toNat * pacing.batchNanos / nanosPerSecond)
    (hfits : pacing.cyclesPerSecond.toNat * pacing.batchNanos / nanosPerSecond < 2 ^ 64) :
    (pacing.durationOf pacing.cyclesPerBatch).toNat ≤ pacing.batchNanos ∧
      ((pacing.batchNanos : Int) - (pacing.durationOf pacing.cyclesPerBatch).toNat - 1) *
        pacing.cyclesPerSecond.toNat < nanosPerSecond := by
  have hquota := (pacing.cyclesPerBatch_eq hfits).trans (Nat.max_eq_right hsome)
  have hduration := pacing.durationOf_eq pacing.cyclesPerBatch
  rw [hquota] at hduration
  generalize pacing.cyclesPerSecond.toNat = rate at *
  generalize pacing.batchNanos = length at *
  have hcycles : rate * length / nanosPerSecond * nanosPerSecond ≤ rate * length :=
    Nat.div_mul_le_self _ _
  have hshort : rate * length / nanosPerSecond * nanosPerSecond / rate ≤ length :=
    Nat.div_le_of_le_mul hcycles
  rw [hduration (Nat.lt_of_le_of_lt hshort hlength)]
  refine ⟨hshort, ?_⟩
  -- each rounding loses less than one of what it divides by
  have hlostCycle : rate * length < nanosPerSecond * (rate * length / nanosPerSecond + 1) :=
    Nat.lt_mul_div_succ _ (by decide)
  have hlostNano := Nat.lt_mul_div_succ (rate * length / nanosPerSecond * nanosPerSecond) hrate
  zify at hlostCycle hlostNano ⊢
  linarith

theorem map_durationOf {pacing : Pacing} {batches : List UInt64}
    (hfits : (batches.map UInt64.toNat).sum * nanosPerSecond / pacing.cyclesPerSecond.toNat <
      2 ^ 64) :
    (batches.map fun cycles => (pacing.durationOf cycles).toNat) =
      (batches.map fun cycles => cycles.toNat * nanosPerSecond).map
        (· / pacing.cyclesPerSecond.toNat) := by
  rw [List.map_map]
  refine List.map_congr_left fun cycles hcycles => ?_
  have hle : cycles.toNat ≤ (batches.map UInt64.toNat).sum :=
    List.le_sum_of_mem (List.mem_map_of_mem hcycles)
  exact pacing.durationOf_eq cycles (Nat.lt_of_le_of_lt
    (Nat.div_le_div_right (Nat.mul_le_mul_right _ hle)) hfits)

/-- The cycles of a batch take no longer than the batch, and fall short of it by less than the time
of one cycle and a nanosecond. The times of batches add up to no more than the time of all their
cycles, and fall short of it by less than one nanosecond for each batch. -/
theorem batch_rounding (pacing : Pacing) (hrate : 1 ≤ pacing.cyclesPerSecond.toNat) :
    let rate := pacing.cyclesPerSecond.toNat
    let length := pacing.batchNanos
    let quota := rate * length / 1000000000
    (length < 2 ^ 64 → 1 ≤ quota → quota < 2 ^ 64 →
      pacing.cyclesPerBatch.toNat = quota ∧
      (pacing.durationOf pacing.cyclesPerBatch).toNat ≤ length ∧
      ((length : Int) - (pacing.durationOf pacing.cyclesPerBatch).toNat - 1) * rate < 1000000000) ∧
    ∀ batches : List UInt64,
      let total := (batches.map UInt64.toNat).sum
      let apart := (batches.map fun cycles => (pacing.durationOf cycles).toNat).sum
      total < 2 ^ 64 → total * 1000000000 / rate < 2 ^ 64 →
        apart ≤ (pacing.durationOf (UInt64.ofNat total)).toNat ∧
          (pacing.durationOf (UInt64.ofNat total)).toNat ≤ apart + (batches.length - 1) := by
  intro rate length quota
  constructor
  · intro hlength hsome hfits
    have hquota := (pacing.cyclesPerBatch_eq hfits).trans (Nat.max_eq_right hsome)
    exact ⟨hquota, quota_duration hrate hlength hsome hfits⟩
  · intro batches total apart htotal htime
    have hvalue : (UInt64.ofNat total).toNat = total := UInt64.toNat_ofNat_of_lt' htotal
    have hduration := pacing.durationOf_eq (UInt64.ofNat total)
    rw [hvalue] at hduration
    have hbounds := sum_div_bounds hrate (batches.map fun cycles => cycles.toNat * nanosPerSecond)
    rw [← map_durationOf htime, List.sum_map_mul_right, List.length_map,
      ← hduration htime] at hbounds
    exact hbounds

theorem batch_rounding_thirds :
    let pacing : Pacing := { cyclesPerSecond := 3, batchNanos := 2333333333 }
    let apart := (([8, 8, 8] : List UInt64).map fun cycles => (pacing.durationOf cycles).toNat).sum
    1 ≤ pacing.cyclesPerSecond.toNat ∧ pacing.cyclesPerBatch.toNat = 6 ∧
      ((2333333333 : Int) - (pacing.durationOf pacing.cyclesPerBatch).toNat - 1) * 3 < 1000000000 ∧
      apart = 7999999998 ∧ apart ≤ (pacing.durationOf 24).toNat ∧
        (pacing.durationOf 24).toNat ≤ apart + 2 := by
  intro pacing apart
  have hrate : 1 ≤ pacing.cyclesPerSecond.toNat := by decide
  obtain ⟨hquota, hdrift⟩ := batch_rounding pacing hrate
  obtain ⟨hcycles, -, hshort⟩ := hquota (by decide) (by decide) (by decide)
  obtain ⟨hless, hmost⟩ := hdrift [8, 8, 8] (by decide) (by decide)
  exact ⟨hrate, hcycles.trans (by decide), hshort, by decide, hless, hmost⟩

end Pacing
end Nmos6502
