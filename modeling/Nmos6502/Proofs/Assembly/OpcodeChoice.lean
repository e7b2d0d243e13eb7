import Nmos6502.Proofs.Assembly.OperandBytes

set_option autoImplicit false

namespace Nmos6502

namespace Operation

def HasEntry (operation : Operation) (form : OperandForm) (b : UInt8) : Prop :=
  (Opcode.ofByte b).isDocumented = true ∧ (Opcode.ofByte b).operation = operation ∧
    OperandForm.ofMode (Opcode.ofByte b).mode = form

/-- Which opcode stands for an operation whose operand has a form. -/
inductive Chooses (operation : Operation) (form : OperandForm) (b : UInt8) : Prop
  | own (h : operation.HasEntry form b)
  | widened {wide : OperandForm} (hlacks : ∀ c, ¬ operation.HasEntry form c)
      (hwide : form.widened = some wide) (h : operation.HasEntry wide b)

variable {operation : Operation} {form : OperandForm}

theorem supports_eq_false_iff :
    operation.supports form = false ↔ ∀ c, ¬ operation.HasEntry form c := by
  rw [← Bool.not_eq_true, supports_iff, not_exists]
  rfl

theorem chooses_iff {b : UInt8} :
    operation.Chooses form b ↔ operation.opcode? (operation.assembledForm form) = some b := by
  rw [opcode?_eq_some_iff]
  constructor
  · rintro (h | ⟨hlacks, hwide, h⟩)
    · have hown : operation.assembledForm form = form := by
        have hsupports : operation.supports form = true := supports_iff.mpr ⟨b, h⟩
        unfold assembledForm
        split <;> simp [hsupports]
      rw [hown]
      exact h
    · have hlong : operation.assembledForm form = OperandForm.ofMode (Opcode.ofByte b).mode := by
        have hsupports : operation.supports _ = true := supports_iff.mpr ⟨b, h⟩
        simp [assembledForm, hwide, supports_eq_false_iff.mpr hlacks, hsupports, h.2.2]
      rw [hlong]
      exact ⟨h.1, h.2.1, rfl⟩
  · intro h
    unfold assembledForm at h
    split at h
    · rename_i wide hwide
      split at h
      · rename_i hpromoted
        simp only [Bool.and_eq_true, Bool.not_eq_true'] at hpromoted
        exact .widened (supports_eq_false_iff.mp hpromoted.1) hwide h
      · exact .own h
    · exact .own h

theorem assembledForm_of_not_chooses (h : ∀ b, ¬ operation.Chooses form b) :
    operation.assembledForm form = form := by
  unfold assembledForm
  split
  · rename_i wide hwide
    split
    · rename_i hpromoted
      simp only [Bool.and_eq_true, Bool.not_eq_true'] at hpromoted
      obtain ⟨b, hb⟩ := supports_iff.mp hpromoted.2
      exact absurd (.widened (supports_eq_false_iff.mp hpromoted.1) hwide hb) (h b)
    · rfl
  · rfl

end Operation

def Target.IsAt (symbols : Assembly.SymbolTable) (address : UInt16) : Target → Prop
  | .number value => address = value
  | .label name => ∃ symbol, symbols.lookup? name = some symbol ∧ symbol.address = address

/-- Whether a number is what an operand comes to in an instruction that ends at `next`: the number
as it was written, the address of a label or one half of it, or the distance of a branch. -/
def Operand.ComesTo (symbols : Assembly.SymbolTable) (next value : UInt16) : Operand → Prop
  | .implied | .accumulator => value = 0
  | .immediate b | .zeroPage b _ | .indirectX b | .indirectY b => value = b.toUInt16
  | .addressByte selector label =>
    ∃ symbol, symbols.lookup? label = some symbol ∧
      value = (selector.select symbol.address).toUInt16
  | .absolute target _ => target.IsAt symbols value
  | .indirect pointer => value = pointer
  | .branch target =>
    ∃ address offset, target.IsAt symbols address ∧ address = next + signExtend offset ∧
      value = offset.toUInt16

namespace Assembly

open Outcome

/-- Whether an operand, if it is a number that a branch at the given address leads to, can be
reached from there. -/
def InReach (address : UInt16) : Operand → Prop
  | .branch (.number target) =>
    -128 ≤ signedDistance (address + 2) target ∧ signedDistance (address + 2) target ≤ 127
  | _ => True

namespace Layout

theorem exists_argument {cursor : UInt16} {read : Operand} (h : InReach cursor read) :
    ∃ argument, Layout.argument cursor read = .ok argument := by
  cases read with
  | branch target =>
    cases target with
    | number target =>
      have hoffset : branchByte (cursor + 2) target = .ok (lowByte (target - (cursor + 2))) :=
        if_pos h
      exact ⟨_, by rw [argument, hoffset]; rfl⟩
    | label name => exact ⟨_, rfl⟩
  | absolute target index => cases target <;> exact ⟨_, rfl⟩
  | _ => exact ⟨_, rfl⟩

theorem argument_of_not_inReach {cursor : UInt16} {read : Operand} (h : ¬ InReach cursor read) :
    ∃ target, read = .branch (.number target) ∧
      Layout.argument cursor read =
        .error (.branchOutOfRange (signedDistance (cursor + 2) target)) := by
  cases read with
  | branch target =>
    cases target with
    | number target =>
      have hoffset : branchByte (cursor + 2) target =
          .error (.branchOutOfRange (signedDistance (cursor + 2) target)) := if_neg h
      exact ⟨target, rfl, by rw [argument, hoffset]; rfl⟩
    | label name => exact absurd trivial h
  | _ => exact absurd trivial h

end Layout

namespace Record

variable {record : Record} {symbols : SymbolTable} {mode : AddressingMode} {argument : Argument}

theorem resolve_lt {value : UInt16} (hfits : argument.Fits mode) (hsmall : argument.Small mode)
    (h : record.resolve symbols argument = .ok value) :
    value.toNat < 256 ^ mode.operandSize := by
  have hbyte (b : UInt8) (hone : mode.operandSize = 1) :
      b.toUInt16.toNat < 256 ^ mode.operandSize := by
    rw [hone, UInt8.toNat_toUInt16]
    exact b.toNat_lt
  have hword (htwo : mode.operandSize = 2) : value.toNat < 256 ^ mode.operandSize := by
    rw [htwo]
    exact value.toNat_lt
  cases argument with
  | none =>
    cases h
    rw [show mode.operandSize = 0 from hfits]
    decide
  | value number =>
    cases h
    have hsome : mode.operandSize ≠ 0 := hfits
    have hle := mode.instructionSize_le_three
    rw [AddressingMode.instructionSize] at hle
    obtain hone | htwo : mode.operandSize = 1 ∨ mode.operandSize = 2 := by omega
    · have hle := UInt16.le_iff_toNat_le.mp (hsmall hone)
      rw [hone]
      exact Nat.lt_succ_of_le hle
    · exact hword htwo
  | label name use =>
    obtain ⟨symbol, -, huse⟩ := resolve_label_eq_ok_iff.mp h
    cases use with
    | branch =>
      obtain ⟨offset, -, rfl⟩ := huse
      exact hbyte offset (by rw [show mode = .relative from hfits]; rfl)
    | absolute =>
      obtain rfl | rfl | rfl : mode = .absolute ∨ mode = .absoluteX ∨ mode = .absoluteY := hfits
      all_goals exact hword rfl
    | byte selector =>
      obtain rfl : value = _ := huse
      exact hbyte _ (by rw [show mode = .immediate from hfits]; rfl)

theorem littleEndian_operandBytes {value : UInt16} (h : value.toNat < 256 ^ mode.operandSize) :
    littleEndian (operandBytes (UInt16.ofNat mode.instructionSize) value) = value.toNat := by
  have hle := mode.instructionSize_le_three
  rw [AddressingMode.instructionSize] at hle
  obtain hzero | hone | htwo : mode.operandSize = 0 ∨ mode.operandSize = 1 ∨ mode.operandSize = 2 :=
    by omega
  · have hnone : operandBytes (UInt16.ofNat mode.instructionSize) value = [] :=
      List.eq_nil_of_length_eq_zero ((operandBytes_length mode value).trans hzero)
    rw [hzero] at h
    rw [hnone, littleEndian]
    omega
  · rw [hone] at h
    rw [operandBytes_of_one hone]
    exact littleEndian_byte (UInt16.le_iff_toNat_le.mpr (Nat.le_of_lt_succ h))
  · rw [operandBytes_of_two htwo, littleEndian_word]

/-- What the argument of a record comes to is what the operand that it was made of comes to. -/
theorem resolve_eq_ok_iff {cursor : UInt16} {read : Operand} {value : UInt16}
    (hargument : Layout.argument cursor read = .ok argument)
    (hnext : read.form = .relative → record.endAddress = cursor + 2) :
    record.resolve symbols argument = .ok value ↔
      read.ComesTo symbols record.endAddress value := by
  have number (n : UInt16) : (Except.ok n : Except Cause UInt16) = .ok value ↔ value = n := by
    rw [Except.ok.injEq, eq_comm]
  cases read with
  | implied | accumulator =>
    cases hargument
    exact number 0
  | immediate b | zeroPage b index | indirectX b | indirectY b =>
    cases hargument
    exact number b.toUInt16
  | indirect pointer =>
    cases hargument
    exact number pointer
  | addressByte selector label =>
    cases hargument
    exact resolve_label_eq_ok_iff
  | absolute target index =>
    cases target with
    | number address =>
      cases hargument
      exact number address
    | label name =>
      cases hargument
      exact resolve_label_eq_ok_iff
  | branch target =>
    cases target with
    | number address =>
      obtain ⟨offset, hoffset, rfl⟩ := map_eq_ok_iff.mp hargument
      rw [← hnext rfl] at hoffset
      rw [resolve, number]
      constructor
      · rintro rfl
        exact ⟨address, offset, rfl, branchByte_eq_ok_iff.mp hoffset, rfl⟩
      · rintro ⟨_, other, rfl, hother, rfl⟩
        rw [branchByte_eq_ok_iff.mpr hother] at hoffset
        rw [Except.ok.inj hoffset]
    | label name =>
      cases hargument
      rw [resolve_label_eq_ok_iff]
      constructor
      · rintro ⟨symbol, hlookup, offset, hoffset, hvalue⟩
        exact ⟨symbol.address, offset, ⟨symbol, hlookup, rfl⟩, hoffset, hvalue⟩
      · rintro ⟨_, offset, ⟨symbol, hlookup, rfl⟩, hoffset, hvalue⟩
        exact ⟨symbol, hlookup, offset, hoffset, hvalue⟩

/-- Whether a record emits an opcode and, behind it, all of the number that an operand comes to, in
as many bytes as the opcode asks for, and emits nothing as long as the operand comes to none. -/
def EmitsWhole (record : Record) (opcode : UInt8) (read : Operand) : Prop :=
  ∀ symbols,
    (∀ value, read.ComesTo symbols record.endAddress value →
      value.toNat < 256 ^ ((Opcode.ofByte opcode).size - 1) ∧
        ∃ operands, record.bytes symbols = .ok (opcode :: operands) ∧
          operands.length = (Opcode.ofByte opcode).size - 1 ∧
            littleEndian operands = value.toNat) ∧
    ∀ emitted, record.bytes symbols = .ok emitted →
      ∃ value, read.ComesTo symbols record.endAddress value

theorem emitsWhole {opcode : UInt8} {cursor : UInt16} {read : Operand}
    (hcontent : record.content = .instruction opcode argument)
    (hsize : record.size = UInt16.ofNat (Opcode.ofByte opcode).size)
    (hfits : argument.Fits (Opcode.ofByte opcode).mode)
    (hsmall : argument.Small (Opcode.ofByte opcode).mode)
    (hargument : Layout.argument cursor read = .ok argument)
    (hnext : read.form = .relative → record.endAddress = cursor + 2) :
    record.EmitsWhole opcode read := by
  intro symbols
  refine ⟨fun value hcomes => ?_, fun emitted hemitted => ?_⟩
  · have hvalue := (resolve_eq_ok_iff hargument hnext).mpr hcomes
    have hlt := resolve_lt hfits hsmall hvalue
    refine ⟨hlt, operandBytes record.size value, ?_, ?_, ?_⟩
    · simp only [bytes, hcontent, hvalue, Except.map]
    · rw [hsize]
      exact operandBytes_length _ value
    · rw [hsize]
      exact littleEndian_operandBytes hlt
  · simp only [bytes, hcontent] at hemitted
    obtain ⟨value, hvalue, -⟩ := map_eq_ok_iff.mp hemitted
    exact ⟨value, (resolve_eq_ok_iff hargument hnext).mp hvalue⟩

end Record

namespace Layout

variable {layout : Layout} {line : Nat} {word operand : List Char} {operation : Operation}
  {read : Operand}

def operandText (layout : Layout) (operand : List Char) : List Char :=
  Text.removeBlanks (Constant.substitute layout.constants operand)

section
variable (hword : Operation.ofMnemonic? word = some operation)
  (hread : readOperand operation word (layout.operandText operand) = .ok read)
include hword hread

theorem putInstruction_of_chooses {argument : Argument} {opcode : UInt8}
    (hargument : Layout.argument layout.cursor read = .ok argument)
    (hopcode : operation.Chooses read.form opcode) :
    layout.putInstruction line word operand =
      .ok (layout.put line word (layout.operandText operand)
        (UInt16.ofNat (Opcode.ofByte opcode).size) (.instruction opcode argument)) := by
  have hfound := Operation.chooses_iff.mp hopcode
  have hsize : (operation.assembledForm read.form).instructionSize =
      (Opcode.ofByte opcode).size := by
    rw [← (Operation.opcode?_eq_some_iff.mp hfound).2.2, OperandForm.instructionSize_ofMode]
    rfl
  rw [← hsize]
  exact execute_eq_ok_iff.mpr (.instruction hword hread hargument hfound)

theorem putInstruction_of_not_inReach (hfar : ¬ InReach layout.cursor read) :
    ∃ target, read = .branch (.number target) ∧
      layout.putInstruction line word operand =
        .error (.branchOutOfRange (signedDistance (layout.cursor + 2) target)) := by
  obtain ⟨target, hbranch, hargument⟩ := argument_of_not_inReach hfar
  refine ⟨target, hbranch, ?_⟩
  rw [operandText] at hread
  simp only [putInstruction, hword, hread, hargument, bind, Except.bind]

theorem putInstruction_of_not_chooses (hnear : InReach layout.cursor read)
    (hnone : ∀ opcode, ¬ operation.Chooses read.form opcode) :
    layout.putInstruction line word operand =
      .error (.unsupportedForm (String.ofList word) read.form) := by
  obtain ⟨argument, hargument⟩ := exists_argument hnear
  have hform := Operation.assembledForm_of_not_chooses hnone
  have hmissing : operation.opcode? read.form = none := by
    rw [← hform, Option.eq_none_iff_forall_ne_some]
    exact fun opcode hopcode => hnone opcode (Operation.chooses_iff.mpr hopcode)
  rw [operandText] at hread
  simp only [putInstruction, hword, hread, hargument, hform, hmissing, bind, Except.bind]

end

/-- An operand that can be read is put behind the opcode that is chosen for its form, and all of the
number that it comes to is emitted; a form for which there is none and a number out of reach make the
line faulty. -/
theorem putInstruction_chooses (hword : Operation.ofMnemonic? word = some operation)
    (hread : if operation.isBranch then
        Operand.classifyBranch (layout.operandText operand) = some read
      else Operand.classify (layout.operandText operand) = .ok (some read)) :
    ((∃ after, layout.putInstruction line word operand = .ok after) ↔
      InReach layout.cursor read ∧ ∃ opcode, operation.Chooses read.form opcode) ∧
    (∀ after, layout.putInstruction line word operand = .ok after →
      ∃ opcode argument record, operation.Chooses read.form opcode ∧
        Layout.argument layout.cursor read = .ok argument ∧
        record = layout.nextRecord line word (layout.operandText operand)
          (UInt16.ofNat (Opcode.ofByte opcode).size) (.instruction opcode argument) ∧
        after = { layout with
          cursor := record.endAddress
          records := layout.records.push record } ∧
        record.EmitsWhole opcode read) ∧
    (¬ InReach layout.cursor read → ∃ target, read = .branch (.number target) ∧
      layout.putInstruction line word operand =
        .error (.branchOutOfRange (signedDistance (layout.cursor + 2) target))) ∧
    (InReach layout.cursor read → (∀ opcode, ¬ operation.Chooses read.form opcode) →
      layout.putInstruction line word operand =
        .error (.unsupportedForm (String.ofList word) read.form)) := by
  replace hread : readOperand operation word (layout.operandText operand) = .ok read :=
    readOperand_eq_ok_iff.mpr hread
  have hchosen (after : Layout) (h : layout.putInstruction line word operand = .ok after) :
      InReach layout.cursor read ∧ ∃ opcode, operation.Chooses read.form opcode := by
    by_cases hnear : InReach layout.cursor read
    · refine ⟨hnear, ?_⟩
      by_contra hnone
      rw [not_exists] at hnone
      rw [putInstruction_of_not_chooses hword hread hnear hnone] at h
      cases h
    · obtain ⟨target, -, hfails⟩ :=
        @putInstruction_of_not_inReach layout line word operand operation read hword hread hnear
      rw [hfails] at h
      cases h
  refine ⟨⟨fun ⟨after, h⟩ => hchosen after h, ?_⟩, ?_,
    putInstruction_of_not_inReach hword hread, putInstruction_of_not_chooses hword hread⟩
  · rintro ⟨hnear, opcode, hopcode⟩
    obtain ⟨argument, hargument⟩ := exists_argument hnear
    exact ⟨_, putInstruction_of_chooses hword hread hargument hopcode⟩
  · intro after h
    obtain ⟨hnear, opcode, hopcode⟩ := hchosen after h
    obtain ⟨argument, hargument⟩ := exists_argument hnear
    have hform := (Operation.opcode?_eq_some_iff.mp (Operation.chooses_iff.mp hopcode)).2.2
    have hshort (hrelative : read.form = .relative) : (Opcode.ofByte opcode).size = 2 := by
      rw [hrelative] at hform
      rw [Opcode.size, Opcode.ofMode_eq_relative_iff.mp hform]
      rfl
    rw [putInstruction_of_chooses hword hread hargument hopcode] at h
    cases h
    refine ⟨opcode, argument, _, hopcode, hargument, rfl, rfl,
      Record.emitsWhole rfl rfl (argument_fits hargument hform) (argument_small hargument hform)
        hargument fun hrelative => ?_⟩
    rw [hshort hrelative]
    rfl

/-- A layout with a constant that stands for a number below 256. -/
def pointing : Layout := { cursor := 0x0600, constants := [⟨"PTR", "$ 10"⟩] }

set_option maxRecDepth 4000 in
theorem putInstruction_chooses_wide :
    Operation.ofMnemonic? ['L', 'd', 'a'] = some .lda ∧
    Operand.classify (pointing.operandText ['P', 'T', 'R', ',', 'Y']) =
      .ok (some (.zeroPage 0x10 (some .y))) ∧
    Operation.lda.Chooses .zeroPageY 0xB9 ∧
    ∃ record after,
      pointing.putInstruction 7 ['L', 'd', 'a'] ['P', 'T', 'R', ',', 'Y'] = .ok after ∧
        after.records = #[record] ∧ record.address = 0x0600 ∧ after.cursor = 0x0603 ∧
        ∀ symbols, record.bytes symbols = .ok [0xB9, 0x10, 0x00] := by
  have hword : Operation.ofMnemonic? ['L', 'd', 'a'] = some .lda := by decide
  have hread : Operand.classify (pointing.operandText ['P', 'T', 'R', ',', 'Y']) =
      .ok (some (.zeroPage 0x10 (some .y))) := by
    decide +kernel
  have hplain : Operation.lda.isBranch = false := by
    have hdocumented : (Opcode.ofByte 0xB9).isDocumented = true := rfl
    exact Bool.eq_false_iff.mpr (mt (Opcode.isBranch_operation_iff hdocumented).mp nofun)
  have hlacks : ∀ c, ¬ Operation.lda.HasEntry .zeroPageY c := by
    have each : ∀ opcode ∈ Opcode.table.toList, opcode.operation = .lda →
        OperandForm.ofMode opcode.mode ≠ .zeroPageY := by
      decide
    exact fun c h => each _ (Opcode.ofByte_mem_table c) h.2.1 h.2.2
  have hopcode : Operation.lda.Chooses .zeroPageY 0xB9 := .widened hlacks rfl ⟨rfl, rfl, rfl⟩
  obtain ⟨hiff, hput, -⟩ :=
    @putInstruction_chooses pointing 7 _ _ _ _ hword (by rw [hplain]; exact hread)
  obtain ⟨after, hafter⟩ := hiff.mpr ⟨trivial, 0xB9, hopcode⟩
  obtain ⟨opcode, argument, record, hchosen, -, hrecord, hlayout, hwhole⟩ := hput after hafter
  obtain rfl : opcode = 0xB9 :=
    Option.some.inj ((Operation.chooses_iff.mp hchosen).symm.trans (Operation.chooses_iff.mp hopcode))
  refine ⟨hword, hread, hopcode, record, after, hafter, ?_, ?_, ?_, fun symbols => ?_⟩
  · rw [hlayout]
    rfl
  · rw [hrecord]
    rfl
  · rw [hlayout, hrecord]
    rfl
  · obtain ⟨-, operands, hbytes, hlength, hvalue⟩ := (hwhole symbols).1 _ rfl
    obtain ⟨low, high, rfl⟩ := List.length_eq_two.mp hlength
    have hsum : low.toNat + 256 * (high.toNat + 256 * 0) = 0x10 := hvalue
    have hlow : low = 0x10 := UInt8.toNat_inj.mp (by change low.toNat = 0x10; omega)
    have hhigh : high = 0x00 := UInt8.toNat_inj.mp (by change high.toNat = 0; omega)
    rw [hbytes, hlow, hhigh]

end Layout
end Assembly
end Nmos6502
