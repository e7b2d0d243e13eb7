import Nmos6502.Proofs.Assembly.BranchByte
import Nmos6502.Proofs.Assembly.Placement
import Nmos6502.Proofs.ByteNumber
import Nmos6502.Proofs.HexNumeral

set_option autoImplicit false

namespace Nmos6502

namespace Assembly

open Outcome

/-- Whether operand bytes are what an argument comes to in an instruction that ends at `next`. -/
def Argument.ComesTo (symbols : SymbolTable) (next : UInt16) (operands : List UInt8) :
    Argument → Prop
  | .none => operands = []
  | .value number => operands ≠ [] ∧ littleEndian operands = number.toNat
  | .label name use => ∃ symbol, symbols.lookup? name = some symbol ∧
    match use with
    | .branch => ∃ offset, operands = [offset] ∧ symbol.address = next + signExtend offset
    | .absolute => operands.length = 2 ∧ littleEndian operands = symbol.address.toNat
    | .byte selector => operands = [selector.select symbol.address]

def Argument.Small (mode : AddressingMode) : Argument → Prop
  | .value number => mode.operandSize = 1 → number ≤ 0xFF
  | _ => True

/-- Whether an instruction record has the opcode of an operation with its name, and an argument that
fits behind it. -/
def Record.Encodes (record : Record) : Prop :=
  match record.content with
  | .instruction opcode argument =>
    Operation.ofMnemonic? record.operation.toList = some (Opcode.ofByte opcode).operation ∧
      argument.Small (Opcode.ofByte opcode).mode
  | _ => True

theorem Layout.argument_small {cursor : UInt16} {operation : Operation} {read : Operand}
    {argument : Argument} {mode : AddressingMode}
    (hargument : Layout.argument cursor read = .ok argument)
    (hmode : OperandForm.ofMode mode = operation.assembledForm read.form) :
    argument.Small mode := by
  have hform := operation.assembledForm_cases read.form
  rw [← hmode] at hform
  have narrow (b : UInt8) : (Argument.value b.toUInt16).Small mode :=
    fun _ => Numeral.toUInt16_le_byte b
  cases read with
  | implied | accumulator =>
    cases hargument
    trivial
  | immediate value | zeroPage value index | indirectX value | indirectY value =>
    cases hargument
    exact narrow value
  | addressByte selector label =>
    cases hargument
    trivial
  | absolute target index =>
    cases target with
    | label name =>
      cases hargument
      trivial
    | number value =>
      cases hargument
      intro hsize
      rcases index with - | - | - <;> cases mode <;>
        simp [Operand.form, Operand.indexedForm, OperandForm.widened, OperandForm.ofMode,
          AddressingMode.operandSize] at hform hsize
  | indirect pointer =>
    cases hargument
    intro hsize
    cases mode <;>
      simp [Operand.form, OperandForm.widened, OperandForm.ofMode,
        AddressingMode.operandSize] at hform hsize
  | branch target =>
    cases target with
    | label name =>
      cases hargument
      trivial
    | number value =>
      obtain ⟨offset, -, rfl⟩ := map_eq_ok_iff.mp hargument
      exact narrow offset

namespace Layout

variable {layout after : Layout} {line : Nat}

def Encodes (layout : Layout) : Prop := ∀ record ∈ layout.records, record.Encodes

theorem Encodes.put {operation operand : List Char} {size : UInt16} {content : Content}
    (h : layout.Encodes)
    (hrecord : (layout.nextRecord line operation operand size content).Encodes) :
    (layout.put line operation operand size content).Encodes :=
  forall_mem_put h hrecord

theorem Encodes.executes {statement : Statement} (h : layout.Encodes)
    (hexecutes : layout.Executes line statement after) : after.Encodes := by
  cases hexecutes with
  | empty => exact h
  | origin hnumber => exact Encodes.put h trivial
  | data hbytes => exact h.put trivial
  | constant hconstant => exact Encodes.put h trivial
  | instruction hword hread hargument hopcode =>
    obtain ⟨-, hoperation, hform⟩ := Operation.opcode?_eq_some_iff.mp hopcode
    refine h.put ⟨?_, argument_small hargument hform⟩
    simpa only [nextRecord, String.toList_ofList, hoperation] using hword

end Layout

theorem encodes_of_parse {base : UInt16} {source : String} {program : Program}
    (h : (Assembler.mk base).parse source = .ok program) :
    ∀ record ∈ program.records, record.Encodes := by
  obtain ⟨layout, hlines, rfl⟩ := Program.ofSource_eq_ok_iff.mp h
  have hstart : Layout.Encodes { cursor := base } := by simp [Layout.Encodes]
  have hencodes : layout.Encodes :=
    Layout.addLines_invariant (fun _ _ _ hbefore _ => Layout.Encodes.put hbefore trivial)
      (fun _ _ _ _ hbefore hexecutes => hbefore.executes hexecutes) hstart hlines
  exact fun record hrecord => hencodes record (Array.mem_toList_iff.mp hrecord)

namespace Record

theorem operandBytes_of_one {mode : AddressingMode} (h : mode.operandSize = 1) (value : UInt16) :
    operandBytes (UInt16.ofNat mode.instructionSize) value = [lowByte value] := by
  rw [AddressingMode.instructionSize, h]
  rfl

theorem operandBytes_of_two {mode : AddressingMode} (h : mode.operandSize = 2) (value : UInt16) :
    operandBytes (UInt16.ofNat mode.instructionSize) value = [lowByte value, highByte value] := by
  rw [AddressingMode.instructionSize, h]
  rfl

theorem exists_operands_of_bytes {record : Record} {symbols : SymbolTable} {chunk : List UInt8}
    {opcode : UInt8} {argument : Argument} (hcontent : record.content = .instruction opcode argument)
    (hformed : record.WellFormed) (hencodes : record.Encodes)
    (hbytes : record.bytes symbols = .ok chunk) :
    ∃ operands, chunk = opcode :: operands ∧
      operands.length = (Opcode.ofByte opcode).mode.operandSize ∧
        argument.ComesTo symbols record.endAddress operands := by
  simp only [WellFormed, hcontent] at hformed
  obtain ⟨-, hsize, hfits⟩ := hformed
  simp only [Encodes, hcontent] at hencodes
  obtain ⟨-, hsmall⟩ := hencodes
  simp only [Record.bytes, hcontent] at hbytes
  obtain ⟨value, hvalue, rfl⟩ := map_eq_ok_iff.mp hbytes
  rw [Opcode.size] at hsize
  rw [hsize]
  generalize (Opcode.ofByte opcode).mode = mode at hfits hsmall ⊢
  refine ⟨_, rfl, operandBytes_length mode value, ?_⟩
  cases argument with
  | none =>
    exact List.eq_nil_of_length_eq_zero ((operandBytes_length mode value).trans hfits)
  | value number =>
    cases hvalue
    have hsome : mode.operandSize ≠ 0 := hfits
    have hle := mode.instructionSize_le_three
    rw [AddressingMode.instructionSize] at hle
    obtain hone | htwo : mode.operandSize = 1 ∨ mode.operandSize = 2 := by omega
    · rw [operandBytes_of_one hone]
      exact ⟨List.cons_ne_nil _ _, littleEndian_byte (hsmall hone)⟩
    · rw [operandBytes_of_two htwo]
      exact ⟨List.cons_ne_nil _ _, littleEndian_word value⟩
  | label name use =>
    obtain ⟨symbol, hlookup, huse⟩ := resolve_label_eq_ok_iff.mp hvalue
    refine ⟨symbol, hlookup, ?_⟩
    cases use with
    | branch =>
      obtain ⟨offset, hoffset, rfl⟩ := huse
      have hone : mode.operandSize = 1 := by rw [show mode = .relative from hfits]; rfl
      rw [operandBytes_of_one hone]
      exact ⟨offset, by simp [lowByte], hoffset⟩
    | absolute =>
      obtain rfl : symbol.address = value := huse
      have htwo : mode.operandSize = 2 := by
        obtain rfl | rfl | rfl : mode = .absolute ∨ mode = .absoluteX ∨ mode = .absoluteY := hfits
        all_goals rfl
      rw [operandBytes_of_two htwo]
      exact ⟨rfl, littleEndian_word symbol.address⟩
    | byte selector =>
      obtain rfl : value = _ := huse
      have hone : mode.operandSize = 1 := by rw [show mode = .immediate from hfits]; rfl
      rw [operandBytes_of_one hone]
      simp [lowByte]

end Record
end Assembly
end Nmos6502
