import Nmos6502.Proofs.Disassembly.InstructionText
import Nmos6502.Proofs.Disassembly.WindowCover

/-!
# Texts tell instructions apart

At one address, instructions with documented opcodes and the same text have the same bytes. The
mnemonic gives the operation; the operand without its digits gives the mode, up to branch targets
and full addresses, which no operation has both of; the digits give the operand bytes. Main
statement: `texts_determine_bytes`, also for listings.
-/

set_option autoImplicit false

namespace Nmos6502

namespace Hex

def blot (c : Char) : Char := if (Numeral.digitValue? c).isSome then '0' else c

theorem map_blot_byteDigits (b : UInt8) : (byteDigits b).map blot = ['0', '0'] := by
  have hblot : ∀ c ∈ byteDigits b, blot c = '0' := forall_mem_byteDigits (by decide) b
  rw [List.map_congr_left hblot]
  rfl

theorem map_blot_wordDigits (w : UInt16) : (wordDigits w).map blot = ['0', '0', '0', '0'] := by
  rw [wordDigits, List.map_append, map_blot_byteDigits, map_blot_byteDigits]
  rfl

end Hex

namespace AddressingMode

/-- The letters of an operand with zeros for its digits. -/
def template (mode : AddressingMode) : List Char := (mode.operandLetters [] 0).map Hex.blot

theorem map_blot_operandLetters (mode : AddressingMode) (operands : List UInt8)
    (address : UInt16) : (mode.operandLetters operands address).map Hex.blot = mode.template := by
  cases mode <;> simp only [template, operandLetters, List.map_cons, List.map_append,
    Hex.map_blot_byteDigits, Hex.map_blot_wordDigits]

/-- Only a branch target looks like the operand of another mode. -/
theorem eq_of_template {a b : AddressingMode} (hbranch : a = relative ↔ b = relative)
    (h : a.template = b.template) : a = b := by
  have apart : ∀ m ∈ all, ∀ n ∈ all, (m = relative ↔ n = relative) →
      m.template = n.template → m = n := by
    decide
  exact apart a (mem_all a) b (mem_all b) hbranch h

theorem operandLetters_inj {mode : AddressingMode} {first second : List UInt8} {address : UInt16}
    (hfirst : first.length = mode.operandSize) (hsecond : second.length = mode.operandSize)
    (h : mode.operandLetters first address = mode.operandLetters second address) :
    first = second := by
  cases mode with
  | implicit | accumulator =>
    rw [List.eq_nil_of_length_eq_zero hfirst, List.eq_nil_of_length_eq_zero hsecond]
  | immediate | zeroPage | zeroPageX | zeroPageY | indirectX | indirectY =>
    obtain ⟨a, rfl⟩ := List.length_eq_one_iff.mp hfirst
    obtain ⟨b, rfl⟩ := List.length_eq_one_iff.mp hsecond
    simpa [operandLetters, Numeral.byteDigits_inj] using h
  | relative =>
    obtain ⟨a, rfl⟩ := List.length_eq_one_iff.mp hfirst
    obtain ⟨b, rfl⟩ := List.length_eq_one_iff.mp hsecond
    have htarget : address + 2 + signExtend a = address + 2 + signExtend b := by
      simpa [operandLetters, Numeral.wordDigits_inj] using h
    rw [signExtend_inj ((UInt16.add_right_inj _).mp htarget)]
  | absolute | absoluteX | absoluteY | indirect =>
    obtain ⟨a, a', rfl⟩ := List.length_eq_two.mp hfirst
    obtain ⟨b, b', rfl⟩ := List.length_eq_two.mp hsecond
    simpa [operandLetters, Numeral.wordDigits_inj, word_inj] using h

end AddressingMode

namespace Disassembly

theorem Instruction.eq_of_text {a b : Instruction} (haddress : a.address = b.address)
    (ha : a.operands.length = a.opcode.mode.operandSize)
    (hb : b.operands.length = b.opcode.mode.operandSize)
    (hadoc : a.opcode.isDocumented = true) (hbdoc : b.opcode.isDocumented = true)
    (h : a.text = b.text) : a = b := by
  -- a source line has one mnemonic and one operand
  have hline := congrArg (fun text => Assembly.SourceLine.ofText text.toList) h
  simp only [ofText_text, Assembly.SourceLine.mk.injEq, Assembly.Statement.instruction.injEq,
    true_and] at hline
  obtain ⟨hmnemonic, hoperand⟩ := hline
  have hoperation : a.opcode.operation = b.opcode.operation :=
    Operation.letters_inj (by simpa [Opcode.isDocumented] using hadoc)
      (by simpa [Opcode.isDocumented] using hbdoc) hmnemonic
  have hbranch : a.opcode.mode = .relative ↔ b.opcode.mode = .relative := by
    rw [opcode, opcode, Opcode.mode_eq_relative_iff, Opcode.mode_eq_relative_iff]
    exact iff_of_eq (congrArg (fun operation => operation.effect.isBranch = true) hoperation)
  have hmode : a.opcode.mode = b.opcode.mode := by
    apply AddressingMode.eq_of_template hbranch
    rw [← AddressingMode.map_blot_operandLetters _ a.operands a.address,
      ← AddressingMode.map_blot_operandLetters _ b.operands b.address]
    exact congrArg (List.map Hex.blot) hoperand
  have hcode : a.code = b.code := by
    apply Opcode.eq_of_writtenAs
    change a.opcode.writtenAs b.opcode = true
    simp [Opcode.writtenAs, hadoc, hoperation, hmode]
  have hoperands : a.operands = b.operands := by
    rw [operandLetters, operandLetters, hmode, haddress] at hoperand
    exact AddressingMode.operandLetters_inj (hmode ▸ ha) hb hoperand
  obtain ⟨address, code, operands⟩ := a
  obtain ⟨address', code', operands'⟩ := b
  rw [mk.injEq]
  exact ⟨haddress, hcode, hoperands⟩

theorem eq_of_texts {address : UInt16} {first second : List Instruction}
    (hfirst : Consecutive address first) (hsecond : Consecutive address second)
    (hfirstDoc : ∀ shown ∈ first, shown.opcode.isDocumented = true)
    (hsecondDoc : ∀ shown ∈ second, shown.opcode.isDocumented = true)
    (h : first.map Instruction.text = second.map Instruction.text) : first = second := by
  induction first generalizing address second with
  | nil => exact (List.map_eq_nil_iff.mp h.symm).symm
  | cons a first ih =>
    cases second with
    | nil => cases h
    | cons b second =>
      obtain ⟨htext, htexts⟩ := List.cons.inj h
      obtain ⟨haddress, ha, hfirst⟩ := hfirst
      obtain ⟨haddress', hb, hsecond⟩ := hsecond
      obtain ⟨hadoc, hfirstDoc⟩ := List.forall_mem_cons.mp hfirstDoc
      obtain ⟨hbdoc, hotherDoc⟩ := List.forall_mem_cons.mp hsecondDoc
      obtain rfl := Instruction.eq_of_text (haddress.trans haddress'.symm) ha hb hadoc hbdoc htext
      -- the same instruction ends at the same address
      rw [ih hfirst hsecond hfirstDoc hotherDoc htexts]

theorem consecutive_window (bytes : List UInt8) (window : Window) :
    Consecutive (UInt16.ofNat (window.startAt bytes.length)) (listing bytes window) := by
  rw [listing_eq_decodeFrom]
  exact consecutive_decodeFrom _ _ _

/-- A window that shows something starts where it is told to, or at the base. -/
theorem Window.startAt_of_shown {bytes : List UInt8} {window : Window}
    (h : listing bytes window ≠ []) :
    window.startAt bytes.length =
      window.start.elim window.base.toNat fun address => max window.base.toNat address.toNat := by
  rw [listing_eq_decodeFrom, ne_eq, decodeFrom_eq_nil_iff, stopAt_le_startAt_iff, bufferEnd] at h
  rw [startAt_eq_elim] at h ⊢
  cases hstart : window.start with
  | none => rfl
  | some address =>
    rw [hstart, Option.elim_some] at h
    rw [Option.elim_some, Option.elim_some]
    omega

theorem listing_eq_of_texts {first second : List UInt8} {window other : Window}
    (hbase : window.base = other.base) (hstart : window.start = other.start)
    (hfirstDoc : ∀ shown ∈ listing first window, shown.opcode.isDocumented = true)
    (hsecondDoc : ∀ shown ∈ listing second other, shown.opcode.isDocumented = true)
    (h : (listing first window).map Instruction.text = (listing second other).map Instruction.text) :
    listing first window = listing second other := by
  by_cases hshown : listing first window = []
  · rw [hshown, List.map_nil] at h
    rw [hshown, List.map_eq_nil_iff.mp h.symm]
  · have hshown' : listing second other ≠ [] := fun hnone =>
      hshown (List.map_eq_nil_iff.mp (by rw [h, hnone, List.map_nil]))
    have hfirst := consecutive_window first window
    have hsecond := consecutive_window second other
    rw [Window.startAt_of_shown hshown, hbase, hstart] at hfirst
    rw [Window.startAt_of_shown hshown'] at hsecond
    exact eq_of_texts hfirst hsecond hfirstDoc hsecondDoc h

/-- Text tells documented instructions apart: at one address, those with the same text have the same
bytes, and so have the listings of two buffers from the same place on whose texts are the same. -/
theorem texts_determine_bytes :
    (∀ (address : UInt16) (first second : List UInt8),
      (Instruction.decode first address).opcode.isDocumented = true →
      (Instruction.decode second address).opcode.isDocumented = true →
      (Instruction.decode first address).text = (Instruction.decode second address).text →
        (Instruction.decode first address).bytes = (Instruction.decode second address).bytes) ∧
    ∀ (first second : List UInt8) (window other : Window),
      window.base = other.base → window.start = other.start →
      (∀ shown ∈ listing first window, shown.opcode.isDocumented = true) →
      (∀ shown ∈ listing second other, shown.opcode.isDocumented = true) →
      (listing first window).map Instruction.text = (listing second other).map Instruction.text →
        (listing first window).map Instruction.bytes =
          (listing second other).map Instruction.bytes := by
  constructor
  · intro address first second hfirst hsecond htext
    exact congrArg Instruction.bytes (Instruction.eq_of_text rfl (takePadded_length _ _)
      (takePadded_length _ _) hfirst hsecond htext)
  · intro first second window other hbase hstart hfirst hsecond htexts
    exact congrArg (List.map Instruction.bytes)
      (listing_eq_of_texts hbase hstart hfirst hsecond htexts)

theorem texts_determine_bytes_cut_off :
    let whole : List UInt8 := [0xD0, 0xFB, 0x4C, 0xFE, 0x00]
    let cut : List UInt8 := [0xD0, 0xFB, 0x4C, 0xFE]
    let window : Window := { base := 0xFFFD }
    ((Instruction.decode (whole.drop 2) 0xFFFF).text = "JMP $00FE" ∧
      (Instruction.decode (cut.drop 2) 0xFFFF).text = "JMP $00FE" ∧
      (Instruction.decode (whole.drop 2) 0xFFFF).bytes =
        (Instruction.decode (cut.drop 2) 0xFFFF).bytes) ∧
    (listing whole window).map Instruction.text = ["BNE $FFFA", "JMP $00FE"] ∧
      (listing cut window).map Instruction.text = ["BNE $FFFA", "JMP $00FE"] ∧
      (listing whole window).map Instruction.bytes = (listing cut window).map Instruction.bytes := by
  intro whole cut window
  obtain ⟨hdecoded, hlisted⟩ := texts_determine_bytes
  have hjump : (Instruction.decode (whole.drop 2) 0xFFFF).text = "JMP $00FE" := by decide
  have hcutJump : (Instruction.decode (cut.drop 2) 0xFFFF).text = "JMP $00FE" := by decide
  have htexts : (listing whole window).map Instruction.text = ["BNE $FFFA", "JMP $00FE"] := by
    decide +kernel
  have hcutTexts : (listing cut window).map Instruction.text = ["BNE $FFFA", "JMP $00FE"] := by
    decide +kernel
  exact ⟨⟨hjump, hcutJump, hdecoded 0xFFFF _ _ (by decide) (by decide)
      (hjump.trans hcutJump.symm)⟩,
    htexts, hcutTexts, hlisted whole cut window window rfl rfl (by decide +kernel)
      (by decide +kernel) (htexts.trans hcutTexts.symm)⟩

end Disassembly
end Nmos6502
