import Nmos6502.Proofs.Disassembly.OperandText

set_option autoImplicit false

namespace Nmos6502

def inkChars : List Char := [
  '#', '$', '(', ')', ',', '?', '0', '1', '2', '3', '4', '5', '6', '7', '8', '9', 'A', 'B', 'C',
  'D', 'E', 'F', 'G', 'H', 'I', 'J', 'K', 'L', 'M', 'N', 'O', 'P', 'Q', 'R', 'S', 'T', 'U', 'V',
  'W', 'X', 'Y', 'Z']

/-- Whether a character occurs in mnemonics or operands. -/
def isInk (c : Char) : Bool := inkChars.contains c

theorem mem_inkChars {c : Char} (h : isInk c = true) : c ∈ inkChars := by
  simpa [isInk] using h

theorem isBlank_of_isInk {c : Char} (h : isInk c = true) : Text.isBlank c = false := by
  have all : inkChars.all (fun d => !Text.isBlank d) = true := by decide
  simpa using List.all_eq_true.mp all c (mem_inkChars h)

theorem Operation.all_isInk_letters (operation : Operation) :
    operation.letters.all isInk = true := by
  cases operation <;> rfl

theorem Operation.isBlank_letters (operation : Operation) :
    ∀ c ∈ operation.letters, Text.isBlank c = false := fun c hc =>
  isBlank_of_isInk (List.all_eq_true.mp operation.all_isInk_letters c hc)

theorem Operation.letters_ne_nil (operation : Operation) : operation.letters ≠ [] := by
  cases operation <;> simp [letters]

theorem Hex.all_isInk_byteDigits (b : UInt8) : (Hex.byteDigits b).all isInk = true := by
  exact List.all_eq_true.mpr (forall_mem_byteDigits (by decide) b)

theorem AddressingMode.all_isInk_operandLetters (mode : AddressingMode) (operands : List UInt8)
    (address : UInt16) : (mode.operandLetters operands address).all isInk = true := by
  have sign : ['#', '$', '(', ')', ',', 'A', 'X', 'Y'].all isInk = true := by decide
  simp only [List.all_cons, Bool.and_eq_true] at sign
  cases mode <;> simp only [operandLetters, Hex.wordDigits, List.all_cons, List.all_append,
    Hex.all_isInk_byteDigits, sign, Bool.and_self]

namespace Assembly.Statement

theorem splitWord_unbroken {word : List Char} (hword : ∀ c ∈ word, Text.isBlank c = false) :
    splitWord word = (word, []) := by
  simp [splitWord, Text.splitFirst?_eq_none hword]

theorem splitWord_append {word operand : List Char} (hword : ∀ c ∈ word, Text.isBlank c = false)
    (hoperand : ∀ c ∈ operand, Text.isBlank c = false) :
    splitWord (word ++ ' ' :: operand) = (word, operand) := by
  have htrim : Text.trim operand = operand :=
    Text.trim_of_ends (fun c hc => hoperand c (List.mem_of_mem_head? hc))
      fun c hc => hoperand c (List.mem_of_mem_getLast? hc)
  simp [splitWord, Text.splitFirst?_append (c := ' ') hword (by decide), htrim]

/-- Text that starts with a mnemonic sets no origin by a star. -/
theorem ofUpper_letters (operation : Operation) (rest : List Char) :
    ofUpper (operation.letters ++ rest) =
      ofWord (splitWord (operation.letters ++ rest)).1
        (splitWord (operation.letters ++ rest)).2 := by
  cases operation <;> rfl

theorem ofWord_letters (operation : Operation) (operand : List Char) :
    ofWord operation.letters operand = instruction operation.letters operand := by
  cases operation <;> rfl

theorem ofUpper_mnemonic (operation : Operation) :
    ofUpper operation.letters = instruction operation.letters [] := by
  have hshape := ofUpper_letters operation []
  rwa [List.append_nil, splitWord_unbroken operation.isBlank_letters, ofWord_letters] at hshape

theorem ofUpper_mnemonic_operand (operation : Operation) {operand : List Char}
    (hoperand : ∀ c ∈ operand, Text.isBlank c = false) :
    ofUpper (operation.letters ++ ' ' :: operand) = instruction operation.letters operand := by
  rw [ofUpper_letters, splitWord_append operation.isBlank_letters hoperand, ofWord_letters]

end Assembly.Statement

namespace Disassembly.Instruction

def operandLetters (instruction : Instruction) : List Char :=
  instruction.opcode.mode.operandLetters instruction.operands instruction.address

def mnemonicLetters (instruction : Instruction) : List Char :=
  instruction.opcode.operation.letters

theorem isBlank_operandLetters (instruction : Instruction) :
    ∀ c ∈ instruction.operandLetters, Text.isBlank c = false := fun c hc =>
  isBlank_of_isInk (List.all_eq_true.mp (AddressingMode.all_isInk_operandLetters _ _ _) c hc)

theorem toList_text (instruction : Instruction) :
    instruction.text.toList =
      if instruction.operandLetters = [] then instruction.mnemonicLetters
      else instruction.mnemonicLetters ++ ' ' :: instruction.operandLetters := by
  have hoperand : (instruction.opcode.mode.operandText instruction.operands
      instruction.address).toList = instruction.operandLetters :=
    AddressingMode.toList_operandText _
  rw [← hoperand]
  simp only [text, instructionText, String.isEmpty_iff, String.toList_eq_nil_iff]
  split
  · simp [Opcode.mnemonic, Operation.mnemonic, mnemonicLetters]
  · simp [Opcode.mnemonic, Operation.mnemonic, mnemonicLetters]

theorem mem_text {instruction : Instruction} {c : Char} (h : c ∈ instruction.text.toList) :
    c ≠ '\n' ∧ c ≠ '\r' ∧ c ≠ ';' ∧ c ≠ ':' ∧ Text.upperChar c = [c] := by
  have all : (' ' :: inkChars).all (fun d =>
      d != '\n' && d != '\r' && d != ';' && d != ':' && Text.upperChar d == [d]) = true := by
    decide
  have hname := List.all_eq_true.mp instruction.opcode.operation.all_isInk_letters
  have hoperand := List.all_eq_true.mp
    (instruction.opcode.mode.all_isInk_operandLetters instruction.operands instruction.address)
  have hmem : c ∈ ' ' :: inkChars := by
    rw [toList_text] at h
    split at h
    · exact List.mem_cons_of_mem _ (mem_inkChars (hname c h))
    · rcases List.mem_append.mp h with h | h
      · exact List.mem_cons_of_mem _ (mem_inkChars (hname c h))
      · rcases List.mem_cons.mp h with rfl | h
        · exact List.mem_cons_self
        · exact List.mem_cons_of_mem _ (mem_inkChars (hoperand c h))
  simpa [and_assoc] using List.all_eq_true.mp all c hmem

theorem text_ne_nil (instruction : Instruction) : instruction.text.toList ≠ [] := by
  have hname : instruction.mnemonicLetters ≠ [] := Operation.letters_ne_nil _
  rw [toList_text]
  split
  · exact hname
  · simp

theorem trim_text (instruction : Instruction) :
    Text.trim instruction.text.toList = instruction.text.toList := by
  have hname : ∀ c ∈ instruction.mnemonicLetters, Text.isBlank c = false :=
    Operation.isBlank_letters _
  have hoperand := instruction.isBlank_operandLetters
  rw [toList_text]
  split
  · exact Text.trim_of_ends (fun c hc => hname c (List.mem_of_mem_head? hc))
      fun c hc => hname c (List.mem_of_mem_getLast? hc)
  · rename_i hsome
    apply Text.trim_of_ends
    · obtain ⟨first, others, hletters⟩ := List.exists_cons_of_ne_nil
        (Operation.letters_ne_nil instruction.opcode.operation)
      rw [mnemonicLetters, hletters] at hname ⊢
      simpa using hname first List.mem_cons_self
    · rw [List.getLast?_append, List.getLast?_cons_of_ne_nil hsome,
        List.getLast?_eq_some_getLast hsome]
      simpa using hoperand _ (List.getLast_mem hsome)

theorem ofText_text (instruction : Instruction) :
    Assembly.SourceLine.ofText instruction.text.toList =
      { label := none
        statement := .instruction instruction.mnemonicLetters instruction.operandLetters } := by
  have hcomment : Assembly.SourceLine.stripComment instruction.text.toList =
      instruction.text.toList := by
    rw [Assembly.SourceLine.stripComment,
      Text.splitUnquoted?_eq_none fun h => (mem_text h).2.2.1 rfl]
  have hlabel : Assembly.SourceLine.splitLabel instruction.text.toList =
      (none, instruction.text.toList) := by
    rw [Assembly.SourceLine.splitLabel,
      Text.splitFirst?_eq_none fun c hc => by simpa using (mem_text hc).2.2.2.1]
  have hupper : Text.upper instruction.text.toList = instruction.text.toList :=
    Text.upper_of_upperChar fun c hc => (mem_text hc).2.2.2.2
  have hstatement : Assembly.Statement.ofUpper instruction.text.toList =
      .instruction instruction.mnemonicLetters instruction.operandLetters := by
    rw [toList_text]
    split
    · rename_i hnone
      rw [hnone]
      exact Assembly.Statement.ofUpper_mnemonic _
    · exact Assembly.Statement.ofUpper_mnemonic_operand _ instruction.isBlank_operandLetters
  simp only [Assembly.SourceLine.ofText, hcomment, hlabel, Assembly.Statement.ofText, trim_text,
    hupper, hstatement]

end Disassembly.Instruction
end Nmos6502
