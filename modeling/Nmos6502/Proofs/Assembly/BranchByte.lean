import Nmos6502.Assembly.Record
import Nmos6502.Proofs.Outcome

set_option autoImplicit false

namespace Nmos6502

theorem signExtend_toNat (b : UInt8) :
    (signExtend b).toNat = if b.toNat < 128 then b.toNat else b.toNat + 65280 := by
  have hb := b.toNat_lt
  have hsign : b < 128 ↔ b.toNat < 128 := UInt8.lt_iff_toNat_lt
  by_cases h : b.toNat < 128
  · simp [signExtend, hsign, h]
  · simp only [signExtend, hsign, h, if_false, UInt16.toNat_add, UInt8.toNat_toUInt16]
    change (b.toNat + 65280) % 65536 = _
    omega

theorem signExtend_inj {a b : UInt8} (h : signExtend a = signExtend b) : a = b := by
  have hvalue := congrArg UInt16.toNat h
  have ha := a.toNat_lt
  have hb := b.toNat_lt
  apply UInt8.toNat_inj.mp
  rw [signExtend_toNat, signExtend_toNat] at hvalue
  split at hvalue <;> split at hvalue <;> omega

namespace Assembly

def IsNear (source target : UInt16) : Prop :=
  -128 ≤ signedDistance source target ∧ signedDistance source target ≤ 127

theorem branchByte_eq_error_iff {source target : UInt16} {cause : Cause} :
    branchByte source target = .error cause ↔
      ¬ IsNear source target ∧ cause = .branchOutOfRange (signedDistance source target) := by
  rw [branchByte]
  split
  · rename_i hnear
    exact ⟨nofun, fun ⟨hfar, _⟩ => absurd hnear hfar⟩
  · rename_i hfar
    exact ⟨fun h => ⟨hfar, (Except.error.inj h).symm⟩, fun ⟨_, h⟩ => congrArg _ h.symm⟩

/-- A branch byte exists just when the target is the source moved by a signed byte. -/
theorem branchByte_eq_ok_iff {source target : UInt16} {b : UInt8} :
    branchByte source target = .ok b ↔ target = source + signExtend b := by
  have hb := b.toNat_lt
  have hsource := source.toNat_lt
  have htarget := target.toNat_lt
  have hdistance : (target - source).toNat = (65536 - source.toNat + target.toNat) % 65536 :=
    UInt16.toNat_sub target source
  have hreach : target = source + signExtend b ↔
      (target - source).toNat = (signExtend b).toNat := by
    rw [← UInt16.toNat_inj, UInt16.toNat_add, hdistance]
    have hextended := (signExtend b).toNat_lt
    omega
  have hbyte : lowByte (target - source) = b ↔ (target - source).toNat % 256 = b.toNat := by
    rw [← UInt8.toNat_inj, lowByte_toNat]
  have hrange : (-128 ≤ signedDistance source target ∧ signedDistance source target ≤ 127) ↔
      (target - source).toNat < 128 ∨ 65408 ≤ (target - source).toNat := by
    have hd := (target - source).toNat_lt
    simp only [signedDistance]
    split <;> omega
  rw [hreach, signExtend_toNat]
  by_cases hnear : (target - source).toNat < 128 ∨ 65408 ≤ (target - source).toNat
  · simp only [branchByte, hrange.mpr hnear, and_self, if_true, Except.ok.injEq, hbyte]
    split <;> omega
  · simp only [branchByte, mt hrange.mp hnear, if_false, reduceCtorEq, false_iff]
    split <;> omega

namespace Record

theorem resolve_label_eq_ok_iff {record : Record} {symbols : SymbolTable} {name : String}
    {use : LabelUse} {value : UInt16} :
    record.resolve symbols (.label name use) = .ok value ↔
      ∃ symbol, symbols.lookup? name = some symbol ∧
        match use with
        | .branch => ∃ offset, symbol.address = record.endAddress + signExtend offset ∧
            value = offset.toUInt16
        | .absolute => symbol.address = value
        | .byte selector => value = (selector.select symbol.address).toUInt16 := by
  rw [resolve]
  cases hlookup : symbols.lookup? name with
  | none => simp
  | some symbol =>
    simp only [Option.some.injEq, exists_eq_left']
    cases use with
    | branch =>
      rw [Outcome.map_eq_ok_iff]
      simp only [branchByte_eq_ok_iff, eq_comm (a := value)]
    | absolute => simp only [Except.ok.injEq]
    | byte selector => rw [Except.ok.injEq, eq_comm]

end Record
end Assembly
end Nmos6502
