import Nmos6502.Effect
import Nmos6502.OperandForm

set_option autoImplicit false

namespace Nmos6502

namespace Opcode

/-- Whether a documented entry is written like another one. -/
def writtenAs (a b : Opcode) : Bool :=
  a.isDocumented && (a.operation == b.operation &&
    OperandForm.ofMode a.mode == OperandForm.ofMode b.mode)

theorem writtenAs_symm {a b : Opcode} (h : a.writtenAs b = true) : b.writtenAs a = true := by
  simp only [writtenAs, isDocumented, Bool.and_eq_true, beq_iff_eq] at h ⊢
  obtain ⟨hdoc, hoperation, hform⟩ := h
  exact ⟨hoperation ▸ hdoc, hoperation.symm, hform.symm⟩

set_option maxRecDepth 4000 in
theorem table_pairwise : table.toList.Pairwise fun a b => a.writtenAs b = false := by
  decide +kernel

theorem ofByte_eq_get (b : UInt8) :
    ofByte b = table.toList.get ⟨b.toNat, by simpa using b.toNat_lt⟩ := by
  simp [ofByte]

theorem ofByte_mem_table (b : UInt8) : ofByte b ∈ table.toList := by
  rw [ofByte_eq_get]
  exact List.get_mem _ _

theorem eq_of_writtenAs {a b : UInt8} (h : (ofByte a).writtenAs (ofByte b) = true) : a = b := by
  have apart : ∀ c d : UInt8, c.toNat < d.toNat → (ofByte c).writtenAs (ofByte d) = false := by
    intro c d hlt
    rw [ofByte_eq_get c, ofByte_eq_get d]
    exact List.pairwise_iff_getElem.mp table_pairwise _ _ _ _ hlt
  rcases Nat.lt_trichotomy a.toNat b.toNat with hlt | heq | hgt
  · simp [apart a b hlt] at h
  · exact UInt8.toNat_inj.mp heq
  · have hswap := writtenAs_symm h
    simp [apart b a hgt] at hswap

end Opcode

namespace Effect

def isBranch : Effect → Bool
  | branch _ => true
  | _ => false

def isJump : Effect → Bool
  | jump | call => true
  | _ => false

end Effect

namespace Operation

theorem opcode?_eq_some_iff {operation : Operation} {form : OperandForm} {b : UInt8} :
    operation.opcode? form = some b ↔
      (Opcode.ofByte b).isDocumented = true ∧ (Opcode.ofByte b).operation = operation ∧
        OperandForm.ofMode (Opcode.ofByte b).mode = form := by
  have fits : ∀ {c : UInt8}, operation.opcode? form = some c →
      (Opcode.ofByte c).isDocumented = true ∧ (Opcode.ofByte c).operation = operation ∧
        OperandForm.ofMode (Opcode.ofByte c).mode = form := by
    intro c hc
    simpa [opcode?, and_assoc] using List.find?_some hc
  constructor
  · exact fits
  · rintro ⟨hdoc, rfl, rfl⟩
    cases hfound : (Opcode.ofByte b).operation.opcode?
        (OperandForm.ofMode (Opcode.ofByte b).mode) with
    | none =>
      have hmiss := List.find?_eq_none.mp hfound b (mem_allBytes b)
      simp [hdoc] at hmiss
    | some c =>
      obtain ⟨hcdoc, hcoperation, hcform⟩ := fits hfound
      have alike : (Opcode.ofByte c).writtenAs (Opcode.ofByte b) = true := by
        simp [Opcode.writtenAs, hcdoc, hcoperation, hcform]
      rw [Opcode.eq_of_writtenAs alike]

theorem supports_iff {operation : Operation} {form : OperandForm} :
    operation.supports form = true ↔
      ∃ b, (Opcode.ofByte b).isDocumented = true ∧ (Opcode.ofByte b).operation = operation ∧
        OperandForm.ofMode (Opcode.ofByte b).mode = form := by
  simp only [supports, Option.isSome_iff_exists, opcode?_eq_some_iff]

theorem map_toUpper_letters (operation : Operation) :
    operation.letters.map Char.toUpper = operation.letters := by
  cases operation <;> rfl

theorem map_toUpper_of_ofMnemonic? {text : List Char} {operation : Operation}
    (h : ofMnemonic? text = some operation) : text.map Char.toUpper = operation.letters := by
  rw [ofMnemonic?] at h
  have hfound := List.find?_some h
  exact (beq_iff_eq.mp hfound).symm

theorem ofMnemonic?_letters {operation : Operation} (h : operation ≠ undefined) :
    ofMnemonic? operation.letters = some operation := by
  have all : ∀ named ∈ documented, ofMnemonic? named.letters = some named := by decide
  exact all operation (mem_documented h)

theorem letters_inj {a b : Operation} (ha : a ≠ undefined) (hb : b ≠ undefined)
    (h : a.letters = b.letters) : a = b := by
  have hfound := ofMnemonic?_letters ha
  rw [h, ofMnemonic?_letters hb] at hfound
  exact (Option.some.inj hfound).symm

end Operation

namespace Opcode

set_option maxRecDepth 4000 in
theorem mode_eq_relative_iff (b : UInt8) :
    (ofByte b).mode = .relative ↔ (ofByte b).operation.effect.isBranch = true := by
  have all : ∀ opcode ∈ table.toList,
      opcode.mode = .relative ↔ opcode.operation.effect.isBranch = true := by decide
  exact all _ (ofByte_mem_table b)

set_option maxRecDepth 4000 in
theorem mode_of_isJump {b : UInt8} (h : (ofByte b).operation.effect.isJump = true) :
    (ofByte b).mode = .absolute ∨ (ofByte b).mode = .indirect := by
  have all : ∀ opcode ∈ table.toList, opcode.operation.effect.isJump = true →
      opcode.mode = .absolute ∨ opcode.mode = .indirect := by decide
  exact all _ (ofByte_mem_table b) h

theorem ofMode_eq_relative_iff {mode : AddressingMode} :
    OperandForm.ofMode mode = .relative ↔ mode = .relative := by
  cases mode <;> simp [OperandForm.ofMode]

theorem isBranch_operation_iff {b : UInt8} (hdoc : (ofByte b).isDocumented = true) :
    (ofByte b).operation.isBranch = true ↔ (ofByte b).mode = .relative := by
  rw [Operation.isBranch, Operation.supports_iff]
  constructor
  · rintro ⟨c, _, hoperation, hform⟩
    have hbranch := (mode_eq_relative_iff c).mp (ofMode_eq_relative_iff.mp hform)
    exact (mode_eq_relative_iff b).mpr (hoperation ▸ hbranch)
  · intro hmode
    exact ⟨b, hdoc, rfl, ofMode_eq_relative_iff.mpr hmode⟩

set_option maxRecDepth 4000 in
theorem mode_ne_accumulator {b : UInt8}
    (h : (ofByte b).operation = .inc ∨ (ofByte b).operation = .dec) :
    (ofByte b).mode ≠ .accumulator := by
  have all : ∀ opcode ∈ table.toList, opcode.operation = .inc ∨ opcode.operation = .dec →
      opcode.mode ≠ .accumulator := by
    decide
  exact all _ (ofByte_mem_table b) h

set_option maxRecDepth 4000 in
theorem eq_gap {b : UInt8} (h : (ofByte b).operation = .undefined) : ofByte b = gap := by
  have all : ∀ opcode ∈ table.toList, opcode.operation = .undefined → opcode = gap := by
    decide
  exact all _ (ofByte_mem_table b) h

set_option maxRecDepth 4000 in
theorem operation_eq_brk_iff (b : UInt8) : (ofByte b).operation = .brk ↔ b = 0 := by
  have all : ∀ opcode ∈ table.toList, opcode.operation = .brk → opcode = ofByte 0 := by
    decide
  have hzero : (ofByte 0).operation = .brk := by decide
  have hself : (ofByte 0).writtenAs (ofByte 0) = true := by decide
  constructor
  · intro h
    have heq := all _ (ofByte_mem_table b) h
    exact eq_of_writtenAs (by rw [heq, hself])
  · rintro rfl
    exact hzero

set_option maxRecDepth 4000 in
theorem mode_of_jsr {b : UInt8} (h : (ofByte b).operation = .jsr) :
    (ofByte b).mode = .absolute := by
  have all : ∀ opcode ∈ table.toList, opcode.operation = .jsr → opcode.mode = .absolute := by
    decide
  exact all _ (ofByte_mem_table b) h

end Opcode
end Nmos6502
