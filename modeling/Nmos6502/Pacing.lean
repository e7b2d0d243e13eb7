set_option autoImplicit false

namespace Nmos6502

structure Pacing where
  cyclesPerSecond : UInt64 := 1000000
  batchNanos : Nat := 10000000
  deriving DecidableEq, Repr

namespace Pacing

def nanosPerSecond : Nat := 1000000000

/-- Cycles of one batch, at least one. The product is one of 128 bits. -/
def cyclesPerBatch (pacing : Pacing) : UInt64 :=
  let product := pacing.cyclesPerSecond.toNat * pacing.batchNanos % (UInt64.size * UInt64.size)
  let cycles := UInt64.ofNat (product / nanosPerSecond)
  if cycles = 0 then 1 else cycles

/-- Nanoseconds that a number of cycles takes; none when the clock stands still. -/
def durationOf (pacing : Pacing) (cycles : UInt64) : UInt64 :=
  UInt64.ofNat (cycles.toNat * nanosPerSecond / pacing.cyclesPerSecond.toNat)

theorem cyclesPerBatch_pos (pacing : Pacing) : 0 < pacing.cyclesPerBatch.toNat := by
  unfold cyclesPerBatch
  dsimp only
  split
  · decide
  · exact Nat.pos_of_ne_zero fun h => by simp_all [← UInt64.toNat_inj]

theorem cyclesPerBatch_toNat (pacing : Pacing)
    (hproduct : pacing.cyclesPerSecond.toNat * pacing.batchNanos < UInt64.size * UInt64.size) :
    pacing.cyclesPerBatch.toNat =
      max 1 (pacing.cyclesPerSecond.toNat * pacing.batchNanos / nanosPerSecond % UInt64.size) := by
  have hlow : (UInt64.ofNat (pacing.cyclesPerSecond.toNat * pacing.batchNanos /
      nanosPerSecond)).toNat =
        pacing.cyclesPerSecond.toNat * pacing.batchNanos / nanosPerSecond % UInt64.size :=
    UInt64.toNat_ofNat'
  unfold cyclesPerBatch
  rw [Nat.mod_eq_of_lt hproduct]
  dsimp only
  split
  case isTrue h =>
    rw [h] at hlow
    rw [← hlow]
    rfl
  case isFalse h =>
    have hne := mt UInt64.toNat_inj.mp h
    change _ ≠ 0 at hne
    rw [hlow] at hne ⊢
    omega

theorem cyclesPerBatch_eq (pacing : Pacing)
    (small : pacing.cyclesPerSecond.toNat * pacing.batchNanos / nanosPerSecond < UInt64.size) :
    pacing.cyclesPerBatch.toNat =
      max 1 (pacing.cyclesPerSecond.toNat * pacing.batchNanos / nanosPerSecond) := by
  have hproduct : pacing.cyclesPerSecond.toNat * pacing.batchNanos < UInt64.size * nanosPerSecond :=
    (Nat.div_lt_iff_lt_mul (by decide)).mp small
  rw [cyclesPerBatch_toNat _ (Nat.lt_trans hproduct (by decide)), Nat.mod_eq_of_lt small]

theorem durationOf_eq (pacing : Pacing) (cycles : UInt64)
    (small : cycles.toNat * nanosPerSecond / pacing.cyclesPerSecond.toNat < UInt64.size) :
    (pacing.durationOf cycles).toNat =
      cycles.toNat * nanosPerSecond / pacing.cyclesPerSecond.toNat :=
  UInt64.toNat_ofNat_of_lt' small

end Pacing
end Nmos6502
