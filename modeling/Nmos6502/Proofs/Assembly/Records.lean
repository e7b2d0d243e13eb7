import Mathlib.Data.List.Nodup
import Nmos6502.Proofs.Assembly.Lines
import Nmos6502.Proofs.OpcodeLookup

set_option autoImplicit false

namespace Nmos6502

theorem OperandForm.ofMode_eq_implied_iff {mode : AddressingMode} :
    ofMode mode = .implied ↔ mode.operandSize = 0 := by
  cases mode <;> decide

theorem OperandForm.widened_ne_implied {form : OperandForm} :
    ∀ wide ∈ form.widened, wide ≠ implied := by
  have each : ∀ form ∈ all, ∀ wide ∈ form.widened, wide ≠ implied := by decide
  exact each form form.mem_all

theorem Operation.assembledForm_cases (operation : Operation) (form : OperandForm) :
    operation.assembledForm form = form ∨ form.widened = some (operation.assembledForm form) := by
  unfold assembledForm
  cases form.widened with
  | none => exact .inl rfl
  | some wide =>
    dsimp only
    split
    · exact .inr rfl
    · exact .inl rfl

namespace Assembly

open Outcome

def Argument.Fits (mode : AddressingMode) : Argument → Prop
  | .none => mode.operandSize = 0
  | .value _ => mode.operandSize ≠ 0
  | .label _ .branch => mode = .relative
  | .label _ .absolute => mode = .absolute ∨ mode = .absoluteX ∨ mode = .absoluteY
  | .label _ (.byte _) => mode = .immediate

namespace Record

/-- Whether the size of a record, and the argument of an instruction, are what the content asks
for. -/
def WellFormed (record : Record) : Prop :=
  match record.content with
  | .instruction opcode argument =>
    (Opcode.ofByte opcode).isDocumented = true ∧
      record.size = UInt16.ofNat (Opcode.ofByte opcode).size ∧
        argument.Fits (Opcode.ofByte opcode).mode
  | .data bytes => record.size = UInt16.ofNat bytes.length
  | .origin | .label _ | .constant _ _ => record.size = 0

/-- Whether a record stands where the next byte goes; an origin itself says where that is. -/
def StandsAt (record : Record) (cursor : UInt16) : Prop :=
  match record.content with
  | .origin => Numeral.value? record.operand.toList = some record.address
  | _ => record.address = cursor

def symbol? (record : Record) : Option Symbol :=
  match record.content with
  | .label name => some ⟨name, record.address, record.line⟩
  | _ => none

theorem symbol?_eq_some_iff {record : Record} {symbol : Symbol} :
    record.symbol? = some symbol ↔
      record.content = .label symbol.name ∧ record.address = symbol.address ∧
        record.line = symbol.line := by
  unfold symbol?
  cases hcontent : record.content with
  | label name =>
    obtain ⟨symbolName, address, line⟩ := symbol
    simp
  | origin | constant name value | data bytes | instruction opcode argument => simp

end Record

def Leads : UInt16 → List Record → UInt16 → Prop
  | start, [], stop => start = stop
  | start, record :: rest, stop => record.StandsAt start ∧ Leads record.endAddress rest stop

theorem leads_append {start stop : UInt16} {before after : List Record} :
    Leads start (before ++ after) stop ↔
      ∃ middle, Leads start before middle ∧ Leads middle after stop := by
  induction before generalizing start with
  | nil => simp [Leads]
  | cons record before ih => simp [Leads, ih, and_assoc]

/-- What the first pass promises about the records it has made, the symbols, and its cursor. -/
structure Sound (base : UInt16) (records : List Record) (symbols : SymbolTable) (cursor : UInt16) :
    Prop where
  leads : Leads base records cursor
  wellFormed : ∀ record ∈ records, record.WellFormed
  declared : symbols.entries.toList = records.filterMap Record.symbol?
  distinct : (symbols.entries.toList.map Symbol.name).Nodup

namespace Sound

variable {base cursor : UInt16} {records : List Record} {symbols : SymbolTable}

theorem start (base : UInt16) : Sound base [] {} base :=
  ⟨rfl, by simp, rfl, .nil⟩

theorem push (h : Sound base records symbols cursor) {record : Record}
    (hat : record.StandsAt cursor) (hformed : record.WellFormed)
    (hplain : record.symbol? = none) :
    Sound base (records ++ [record]) symbols record.endAddress where
  leads := leads_append.mpr ⟨cursor, h.leads, hat, rfl⟩
  wellFormed := List.forall_mem_append.mpr ⟨h.wellFormed, by simpa using hformed⟩
  declared := by simp [h.declared, hplain]
  distinct := h.distinct

theorem lookup?_eq_none_iff {name : String} :
    symbols.lookup? name = none ↔ name ∉ symbols.entries.toList.map Symbol.name := by
  simp [SymbolTable.lookup?, List.mem_map]

theorem pushLabel (h : Sound base records symbols cursor) {record : Record} {symbol : Symbol}
    (hat : record.StandsAt cursor) (hformed : record.WellFormed)
    (hsymbol : record.symbol? = some symbol) (hnew : symbols.lookup? symbol.name = none) :
    Sound base (records ++ [record]) ⟨symbols.entries.push symbol⟩ record.endAddress where
  leads := leads_append.mpr ⟨cursor, h.leads, hat, rfl⟩
  wellFormed := List.forall_mem_append.mpr ⟨h.wellFormed, by simpa using hformed⟩
  declared := by simp [h.declared, hsymbol]
  distinct := by
    have hfresh := lookup?_eq_none_iff.mp hnew
    rw [Array.toList_push, List.map_append, List.nodup_append]
    refine ⟨h.distinct, by simp, ?_⟩
    rintro name hname other hother rfl
    rw [List.map_singleton, List.mem_singleton] at hother
    exact hfresh (hother ▸ hname)

theorem lookup?_eq_some_iff (h : Sound base records symbols cursor) {name : String}
    {symbol : Symbol} :
    symbols.lookup? name = some symbol ↔
      symbol.name = name ∧ ∃ record ∈ records, record.symbol? = some symbol := by
  rw [← List.mem_filterMap, ← h.declared]
  have found : ∀ {other : Symbol}, symbols.lookup? name = some other →
      other.name = name ∧ other ∈ symbols.entries.toList := by
    intro other hlookup
    rw [SymbolTable.lookup?, ← Array.find?_toList] at hlookup
    exact ⟨by simpa using List.find?_some hlookup, List.mem_of_find?_eq_some hlookup⟩
  refine ⟨found, fun ⟨hname, hmem⟩ => ?_⟩
  cases hlookup : symbols.lookup? name with
  | none => exact absurd (List.mem_map.mpr ⟨symbol, hmem, hname⟩) (lookup?_eq_none_iff.mp hlookup)
  | some other =>
    obtain ⟨hother, hmem'⟩ := found hlookup
    exact congrArg some (List.inj_on_of_nodup_map h.distinct hmem' hmem (hother.trans hname.symm))

end Sound

namespace Layout

variable {base : UInt16} {layout after : Layout} {line : Nat}

theorem argument_fits {cursor : UInt16} {operation : Operation} {read : Operand}
    {argument : Argument} {mode : AddressingMode}
    (hargument : Layout.argument cursor read = .ok argument)
    (hmode : OperandForm.ofMode mode = operation.assembledForm read.form) :
    argument.Fits mode := by
  have hform := operation.assembledForm_cases read.form
  rw [← hmode] at hform
  have valued : read.form ≠ .implied → mode.operandSize ≠ 0 := by
    intro hsome hnone
    rw [OperandForm.ofMode_eq_implied_iff.mpr hnone] at hform
    rcases hform with himplied | hwide
    · exact hsome himplied.symm
    · exact OperandForm.widened_ne_implied _ hwide rfl
  cases read with
  | implied | accumulator =>
    cases hargument
    exact OperandForm.ofMode_eq_implied_iff.mp
      (hform.resolve_right (by simp [Operand.form, OperandForm.widened]))
  | immediate value | indirect pointer | indirectX pointer | indirectY pointer =>
    cases hargument
    exact valued (by simp [Operand.form])
  | addressByte selector label =>
    cases hargument
    cases mode <;>
      simp [Operand.form, OperandForm.widened, OperandForm.ofMode, Argument.Fits] at hform ⊢
  | zeroPage address index =>
    cases hargument
    refine valued ?_
    rcases index with - | - | - <;> simp [Operand.form, Operand.indexedForm]
  | absolute target index =>
    have hfull : mode = .absolute ∨ mode = .absoluteX ∨ mode = .absoluteY := by
      rcases index with - | - | - <;> cases mode <;>
        simp [Operand.form, Operand.indexedForm, OperandForm.widened, OperandForm.ofMode] at hform ⊢
    cases target with
    | number value =>
      cases hargument
      rcases hfull with rfl | rfl | rfl <;> simp [Argument.Fits, AddressingMode.operandSize]
    | label name =>
      cases hargument
      exact hfull
  | branch target =>
    have hrelative : mode = .relative := by
      cases mode <;> simp [Operand.form, OperandForm.widened, OperandForm.ofMode] at hform ⊢
    cases target with
    | number value =>
      obtain ⟨offset, -, rfl⟩ := map_eq_ok_iff.mp hargument
      exact valued (by simp [Operand.form])
    | label name =>
      cases hargument
      exact hrelative

def Holds (base : UInt16) (layout : Layout) : Prop :=
  Sound base layout.records.toList layout.symbols layout.cursor

def nextRecord (layout : Layout) (line : Nat) (operation operand : List Char) (size : UInt16)
    (content : Content) : Record :=
  ⟨String.ofList operation, String.ofList operand, line, layout.cursor, size, content⟩

theorem forall_mem_put {P : Record → Prop} (h : ∀ record ∈ layout.records, P record)
    {operation operand : List Char} {size : UInt16} {content : Content}
    (hrecord : P (layout.nextRecord line operation operand size content)) :
    ∀ record ∈ (layout.put line operation operand size content).records, P record := by
  intro record hmem
  rcases Array.mem_push.mp hmem with hold | rfl
  · exact h record hold
  · exact hrecord

theorem holds_put {cursor : UInt16} {operation operand : List Char} {size : UInt16}
    {content : Content} (h : Sound base layout.records.toList layout.symbols cursor)
    (hat : (layout.nextRecord line operation operand size content).StandsAt cursor)
    (hformed : (layout.nextRecord line operation operand size content).WellFormed)
    (hplain : (layout.nextRecord line operation operand size content).symbol? = none) :
    (layout.put line operation operand size content).Holds base := by
  rw [Holds, put, Array.toList_push]
  exact h.push hat hformed hplain

theorem Holds.withLabel (h : layout.Holds base) {name : String}
    (hnew : layout.symbols.lookup? name = none) : (layout.withLabel line name).Holds base := by
  rw [Holds, Layout.withLabel, put, Array.toList_push]
  exact Sound.pushLabel h rfl rfl rfl hnew

theorem Holds.executes {statement : Statement} (h : layout.Holds base)
    (hexecutes : layout.Executes line statement after) : after.Holds base := by
  cases hexecutes with
  | empty => exact h
  | origin hnumber =>
    refine holds_put h ?_ rfl rfl
    simpa [nextRecord, Record.StandsAt] using hnumber
  | data hbytes => exact holds_put h rfl rfl rfl
  | constant hconstant => exact holds_put h rfl rfl rfl
  | instruction hword hread hargument hopcode =>
    obtain ⟨hdoc, -, hform⟩ := Operation.opcode?_eq_some_iff.mp hopcode
    refine holds_put h rfl ⟨hdoc, ?_, argument_fits hargument hform⟩ rfl
    rw [← hform, OperandForm.instructionSize_ofMode]
    rfl

theorem Holds.addLines {lines : List (List Char × Nat)} (h : layout.Holds base)
    (hadd : layout.addLines lines = .ok after) : after.Holds base :=
  addLines_invariant (fun _ _ _ hbefore hnew => hbefore.withLabel hnew)
    (fun _ _ _ _ hbefore hexecutes => hbefore.executes hexecutes) h hadd

end Layout

theorem sound_of_parse {base : UInt16} {source : String} {program : Program}
    (h : (Assembler.mk base).parse source = .ok program) :
    ∃ stop, Sound base program.records program.symbols stop := by
  obtain ⟨layout, hlines, rfl⟩ := Program.ofSource_eq_ok_iff.mp h
  have hstart : Layout.Holds base { cursor := base } := Sound.start base
  exact ⟨layout.cursor, hstart.addLines hlines⟩

end Assembly
end Nmos6502
