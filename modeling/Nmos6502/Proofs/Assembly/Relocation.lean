import Nmos6502.Proofs.Assembly.OperandBytes
import Nmos6502.Proofs.OperandReading

/-!
# Relocation

A source that sets no origin and branches to no number is laid out in the same way from every base
address: all addresses move along with the base, and no decision of the first pass depends on them.
In the code, only operand bytes that show the address of a label are different. Main statement:
`assemble_relocated`.
-/

set_option autoImplicit false

namespace Nmos6502.Assembly

open Outcome

/-! ### Moving records and symbols -/

def Record.shift (distance : UInt16) (record : Record) : Record :=
  { record with address := record.address + distance }

def Symbol.shift (distance : UInt16) (symbol : Symbol) : Symbol :=
  { symbol with address := symbol.address + distance }

def SymbolTable.shift (distance : UInt16) (table : SymbolTable) : SymbolTable :=
  { entries := table.entries.map (Symbol.shift distance) }

def Layout.shift (distance : UInt16) (layout : Layout) : Layout :=
  { layout with
    cursor := layout.cursor + distance
    records := layout.records.map (Record.shift distance)
    symbols := layout.symbols.shift distance }

def Program.shift (distance : UInt16) (program : Program) : Program :=
  { program with
    records := program.records.map (Record.shift distance)
    symbols := program.symbols.shift distance }

section
variable {distance : UInt16}

theorem SymbolTable.lookup?_shift (table : SymbolTable) (name : String) :
    (table.shift distance).lookup? name = (table.lookup? name).map (Symbol.shift distance) := by
  rw [lookup?, shift, Array.find?_map]
  rfl

theorem Record.endAddress_shift (record : Record) :
    (record.shift distance).endAddress = record.endAddress + distance := by
  simp only [endAddress, shift]
  grind

theorem branchByte_shift (source target : UInt16) :
    branchByte (source + distance) (target + distance) = branchByte source target := by
  have hsame : target + distance - (source + distance) = target - source := by grind
  have hdistance : signedDistance (source + distance) (target + distance) =
      signedDistance source target := by simp only [signedDistance, hsame]
  rw [branchByte, hdistance, hsame, branchByte]

/-! ### The first pass -/

namespace Statement

/-- Whether a statement neither sets the origin nor branches to a number, where the given constants
are in force. -/
def isRelocatable (constants : List Constant) : Statement → Bool
  | origin _ _ => false
  | instruction word operand =>
    (Operation.ofMnemonic? word).all fun operation => !operation.isBranch ||
      (Numeral.value? (Text.removeBlanks (Constant.substitute constants operand))).isNone
  | _ => true

def constantsAfter (constants : List Constant) : Statement → List Constant
  | constant _ operand =>
    ((Layout.constant? operand).map fun constant => constant.define constants).getD constants
  | _ => constants

end Statement

def relocatable : List Constant → List SourceLine → Bool
  | _, [] => true
  | constants, line :: rest =>
    line.statement.isRelocatable constants &&
      relocatable (line.statement.constantsAfter constants) rest

namespace Layout

variable {layout after : Layout} {line : Nat}

theorem readOperand_eq_branch {operation : Operation} {word text : List Char} {target : Target}
    (h : readOperand operation word text = .ok (.branch target)) :
    operation.isBranch = true ∧ Operand.target? text = some target := by
  rw [readOperand_eq_ok_iff] at h
  split at h
  · rename_i hbranch
    refine ⟨hbranch, ?_⟩
    rcases Option.or_eq_some_iff.mp h with hbare | ⟨-, htarget⟩
    · nomatch Operand.spells_of_ofBare? hbare
    · obtain ⟨found, hfound, hread⟩ := Option.map_eq_some_iff.mp htarget
      cases hread
      exact hfound
  · nomatch Operand.spells_of_classify h

theorem argument_shift {operation : Operation} {word text : List Char} {read : Operand}
    (hread : readOperand operation word text = .ok read)
    (hplain : operation.isBranch = true → Numeral.value? text = none) (cursor : UInt16) :
    argument (cursor + distance) read = argument cursor read := by
  cases read with
  | branch target =>
    cases target with
    | label name => rfl
    | number value =>
      obtain ⟨hbranch, htarget⟩ := readOperand_eq_branch hread
      rw [Operand.target?, hplain hbranch] at htarget
      split at htarget <;> cases htarget
  | absolute target index =>
    cases target <;> rfl
  | _ => rfl

theorem put_shift (operation operand : List Char) (size : UInt16) (content : Content) :
    (layout.shift distance).put line operation operand size content =
      (layout.put line operation operand size content).shift distance := by
  have hcursor : layout.cursor + distance + size = layout.cursor + size + distance := by grind
  simp [put, shift, Record.shift, hcursor]

theorem declare_shift (name : List Char) :
    (layout.shift distance).declare line name =
      (layout.declare line name).map (shift distance) := by
  simp only [declare, SymbolTable.add?, shift, SymbolTable.lookup?_shift]
  cases layout.symbols.lookup? (String.ofList name) with
  | some first => rfl
  | none =>
    simp only [Option.map_none, Except.map, ← put_shift]
    simp [shift, SymbolTable.shift, Symbol.shift]

theorem putInstruction_shift {word operand : List Char}
    (h : (Statement.instruction word operand).isRelocatable layout.constants = true) :
    (layout.shift distance).putInstruction line word operand =
      (layout.putInstruction line word operand).map (shift distance) := by
  unfold putInstruction
  cases hword : Operation.ofMnemonic? word with
  | none => rfl
  | some operation =>
    have hplain : operation.isBranch = true → Numeral.value?
        (Text.removeBlanks (Constant.substitute layout.constants operand)) = none := by
      simpa [Statement.isRelocatable, hword, Decidable.imp_iff_not_or] using h
    simp only [shift]
    cases hread : readOperand operation word
        (Text.removeBlanks (Constant.substitute layout.constants operand)) with
    | error cause => rfl
    | ok read =>
      simp only [bind, Except.bind, argument_shift hread hplain]
      cases argument layout.cursor read with
      | error cause => rfl
      | ok argument =>
        cases operation.opcode? (operation.assembledForm read.form) with
        | none => rfl
        | some opcode => exact congrArg Except.ok (put_shift ..)

theorem execute_shift {statement : Statement}
    (h : statement.isRelocatable layout.constants = true) :
    (layout.shift distance).execute line statement =
      (layout.execute line statement).map (shift distance) := by
  cases statement with
  | empty => rfl
  | origin word operand => cases h
  | data word operand =>
    simp only [execute, putData]
    cases Data.bytes operand with
    | error cause => rfl
    | ok bytes => exact congrArg Except.ok (put_shift ..)
  | constant word operand =>
    simp only [execute, define]
    cases constant? operand with
    | none => rfl
    | some constant =>
      exact congrArg Except.ok
        (@put_shift distance { layout with constants := constant.define layout.constants } line
          word operand 0 (.constant constant.name constant.value))
  | instruction word operand => exact putInstruction_shift h

theorem declare_constants {name : List Char} (h : layout.declare line name = .ok after) :
    after.constants = layout.constants := by
  rw [(declare_eq_ok_iff.mp h).2]
  rfl

theorem Executes.constants {statement : Statement} (h : layout.Executes line statement after) :
    after.constants = statement.constantsAfter layout.constants := by
  cases h with
  | constant hconstant => simp [put, Statement.constantsAfter, hconstant]
  | _ => rfl

theorem addLine_constants {text : List Char} (h : layout.addLine text line = .ok after) :
    after.constants = (SourceLine.ofText text).statement.constantsAfter layout.constants := by
  obtain ⟨middle, hmiddle, hexecutes⟩ := addLine_eq_ok_iff.mp h
  rw [hexecutes.constants]
  split at hmiddle
  · rw [hmiddle]
  · rw [declare_constants hmiddle]

/-- A line is laid out in the same way wherever the cursor is. -/
theorem addLine_shift {text : List Char}
    (h : (SourceLine.ofText text).statement.isRelocatable layout.constants = true) :
    (layout.shift distance).addLine text line =
      (layout.addLine text line).map (shift distance) := by
  unfold addLine addSourceLine
  cases (SourceLine.ofText text).label with
  | none =>
    simp only [pure, Except.pure, bind, Except.bind, execute_shift h]
    cases layout.execute line (SourceLine.ofText text).statement <;> rfl
  | some name =>
    simp only [declare_shift]
    cases hdeclare : layout.declare line name with
    | error cause => rfl
    | ok middle =>
      rw [← declare_constants hdeclare] at h
      simp only [Except.map, bind, Except.bind, execute_shift h]
      cases middle.execute line (SourceLine.ofText text).statement <;> rfl

theorem addLines_shift {lines : List (List Char × Nat)}
    (h : relocatable layout.constants (lines.map fun line => SourceLine.ofText line.1) = true) :
    (layout.shift distance).addLines lines = (layout.addLines lines).map (shift distance) := by
  induction lines generalizing layout with
  | nil => rfl
  | cons first rest ih =>
    simp only [List.map_cons, relocatable, Bool.and_eq_true] at h
    simp only [addLines, List.foldlM_cons, addLine_shift h.1]
    cases hfirst : layout.addLine first.1 first.2 with
    | error error => rfl
    | ok after =>
      rw [← addLine_constants hfirst] at h
      exact ih h.2

end Layout

theorem Program.ofSource_shift {base : UInt16} {source : List Char}
    (h : relocatable [] ((Text.lines source).map SourceLine.ofText) = true) :
    ofSource (base + distance) source = (ofSource base source).map (shift distance) := by
  have hlines : relocatable [] (((Text.lines source).zipIdx 1).map fun line =>
      SourceLine.ofText line.1) = true := by
    rwa [← List.zipIdx_map_fst 1 (Text.lines source), List.map_map] at h
  have hrun : (Layout.shift distance { cursor := base }).addLines ((Text.lines source).zipIdx 1) =
      (Layout.addLines { cursor := base } ((Text.lines source).zipIdx 1)).map
        (Layout.shift distance) := Layout.addLines_shift hlines
  have hstart : Layout.shift distance { cursor := base } = { cursor := base + distance } := by
    simp [Layout.shift, SymbolTable.shift]
  rw [hstart] at hrun
  rw [ofSource, ofSource, hrun]
  cases Layout.addLines { cursor := base } ((Text.lines source).zipIdx 1) with
  | error error => rfl
  | ok layout => simp [Except.map, bind, Except.bind, pure, Except.pure, Layout.shift, shift]

/-! ### The second pass -/

namespace Record

/-- What moving does to the bytes of a record: only operand bytes that show the address of a label
follow it. -/
def Changes (distance : UInt16) (symbols : SymbolTable) (record : Record)
    (chunk moved : List UInt8) : Prop :=
  match record.content with
  | .instruction opcode (.label name .absolute) =>
    ∃ symbol, symbols.lookup? name = some symbol ∧
      chunk = [opcode, lowByte symbol.address, highByte symbol.address] ∧
        moved = [opcode, lowByte (symbol.address + distance), highByte (symbol.address + distance)]
  | .instruction opcode (.label name (.byte selector)) =>
    ∃ symbol, symbols.lookup? name = some symbol ∧
      chunk = [opcode, selector.select symbol.address] ∧
        moved = [opcode, selector.select (symbol.address + distance)]
  | _ => moved = chunk

variable {record : Record} {symbols : SymbolTable} {chunk moved : List UInt8}

theorem Changes.length (h : record.Changes distance symbols chunk moved) :
    chunk.length = moved.length := by
  unfold Changes at h
  split at h
  · obtain ⟨symbol, -, rfl, rfl⟩ := h
    rfl
  · obtain ⟨symbol, -, rfl, rfl⟩ := h
    rfl
  · rw [h]

theorem agree_bytes (hformed : record.WellFormed) :
    Agree (record.Changes distance symbols) (record.bytes symbols)
      ((record.shift distance).bytes (symbols.shift distance)) := by
  have hshift : (record.shift distance).content = record.content := rfl
  unfold WellFormed at hformed
  unfold Changes Record.bytes
  rw [hshift]
  cases hcontent : record.content with
  | origin | label name | constant name value | data bytes => exact .ok rfl
  | instruction opcode argument =>
    simp only [hcontent, Opcode.size] at hformed
    obtain ⟨-, hsize, hfits⟩ := hformed
    have hmoved : (record.shift distance).size = record.size := rfl
    rw [hmoved, hsize]
    cases argument with
    | none | value value => exact .ok rfl
    | label name use =>
      simp only [resolve, SymbolTable.lookup?_shift, endAddress_shift]
      cases hlookup : symbols.lookup? name with
      | none => exact .error _
      | some symbol =>
        cases use with
        | branch =>
          simp only [Option.map_some, Symbol.shift, branchByte_shift]
          cases branchByte record.endAddress symbol.address with
          | error cause => exact .error cause
          | ok offset => exact .ok rfl
        | absolute =>
          have htwo : (Opcode.ofByte opcode).mode.operandSize = 2 := by
            rcases hfits with hmode | hmode | hmode <;> rw [hmode] <;> rfl
          simp only [Option.map_some, Except.map, operandBytes_of_two htwo]
          exact .ok ⟨symbol, hlookup, rfl, rfl⟩
        | byte selector =>
          have hone : (Opcode.ofByte opcode).mode.operandSize = 1 := by
            rw [show (Opcode.ofByte opcode).mode = .immediate from hfits]
            rfl
          simp only [Option.map_some, Except.map, operandBytes_of_one hone, lowByte,
            UInt8.toUInt8_toUInt16]
          exact .ok ⟨symbol, hlookup, rfl, rfl⟩

end Record

namespace Program

def Relocates (distance : UInt16) (program : Program) (output moved : List UInt8) : Prop :=
  output.length = moved.length ∧ ∃ emitted : List (Record × List UInt8 × List UInt8),
    emitted.map (fun run => run.1) = program.records ∧
    emitted.flatMap (fun run => run.2.1) = output ∧
    emitted.flatMap (fun run => run.2.2) = moved ∧
    ∀ run ∈ emitted, run.1.bytes program.symbols = .ok run.2.1 ∧
      (run.1.shift distance).bytes (program.symbols.shift distance) = .ok run.2.2 ∧
      run.1.Changes distance program.symbols run.2.1 run.2.2

theorem agree_code {program : Program} (hformed : ∀ record ∈ program.records, record.WellFormed) :
    Agree (program.Relocates distance) program.code (program.shift distance).code := by
  have hchunks := Agree.mapM (f := program.chunk)
    (g := (program.shift distance).chunk ∘ Record.shift distance) fun record hrecord =>
      (Record.agree_bytes (hformed record hrecord)).and_ok.mapError (Error.mk record.line)
  rw [code, code, shift, List.mapM_map]
  refine hchunks.map ?_
  rintro _ _ ⟨emitted, hrecords, rfl, rfl, hruns⟩
  refine ⟨?_, emitted, hrecords, rfl, rfl, hruns⟩
  rw [List.length_flatten, List.length_flatten, List.map_map, List.map_map]
  exact congrArg List.sum (List.map_congr_left fun run hrun => (hruns run hrun).2.2.length)

end Program
end

/-- From two base addresses, a relocatable source either fails alike or gives records, symbols and
code that are the same up to the distance between the two. -/
theorem assemble_relocated {base base' : UInt16} {source : String}
    (hsource : relocatable [] ((Text.lines source.toList).map SourceLine.ofText) = true) :
    (Assembler.mk base').parse source =
        ((Assembler.mk base).parse source).map (Program.shift (base' - base)) ∧
      Agree (fun output output' => ∃ program, (Assembler.mk base).parse source = .ok program ∧
          program.Relocates (base' - base) output output')
        ((Assembler.mk base).assemble source) ((Assembler.mk base').assemble source) := by
  have hbase : base + (base' - base) = base' := by grind
  have hparse : Program.ofSource (base + (base' - base)) source.toList =
      (Program.ofSource base source.toList).map (Program.shift (base' - base)) :=
    Program.ofSource_shift hsource
  rw [hbase] at hparse
  refine ⟨hparse, ?_⟩
  change Agree _ (Program.ofSource base source.toList >>= Program.code)
    (Program.ofSource base' source.toList >>= Program.code)
  rw [hparse]
  cases hprogram : Program.ofSource base source.toList with
  | error error => exact .error error
  | ok program =>
    obtain ⟨stop, hsound⟩ := sound_of_parse hprogram
    exact (Program.agree_code hsound.wellFormed).mono fun _ _ hmoves => ⟨program, hprogram, hmoves⟩

theorem assemble_relocated_from_end :
    relocatable [] ((Text.lines "TOP: BNE TOP\nLDY #>TOP\nJMP TOP".toList).map
        SourceLine.ofText) = true ∧
    (Assembler.mk 0xFFFE).assemble "TOP: BNE TOP\nLDY #>TOP\nJMP TOP" =
      .ok [0xD0, 0xFE, 0xA0, 0xFF, 0x4C, 0xFE, 0xFF] ∧
    (Assembler.mk 0x0300).assemble "TOP: BNE TOP\nLDY #>TOP\nJMP TOP" =
      .ok [0xD0, 0xFE, 0xA0, 0x03, 0x4C, 0x00, 0x03] ∧
    (Assembler.mk 0x0300).parse "TOP: BNE TOP\nLDY #>TOP\nJMP TOP" =
      ((Assembler.mk 0xFFFE).parse "TOP: BNE TOP\nLDY #>TOP\nJMP TOP").map
        (Program.shift (0x0300 - 0xFFFE)) ∧
    Agree (fun output output' => ∃ program,
        (Assembler.mk 0xFFFE).parse "TOP: BNE TOP\nLDY #>TOP\nJMP TOP" = .ok program ∧
          program.Relocates (0x0300 - 0xFFFE) output output')
      ((Assembler.mk 0xFFFE).assemble "TOP: BNE TOP\nLDY #>TOP\nJMP TOP")
      ((Assembler.mk 0x0300).assemble "TOP: BNE TOP\nLDY #>TOP\nJMP TOP") := by
  have h : relocatable [] ((Text.lines "TOP: BNE TOP\nLDY #>TOP\nJMP TOP".toList).map
        SourceLine.ofText) = true ∧
      (Assembler.mk 0xFFFE).assemble "TOP: BNE TOP\nLDY #>TOP\nJMP TOP" =
        .ok [0xD0, 0xFE, 0xA0, 0xFF, 0x4C, 0xFE, 0xFF] ∧
      (Assembler.mk 0x0300).assemble "TOP: BNE TOP\nLDY #>TOP\nJMP TOP" =
        .ok [0xD0, 0xFE, 0xA0, 0x03, 0x4C, 0x00, 0x03] := by
    decide +kernel
  exact ⟨h.1, h.2.1, h.2.2, assemble_relocated h.1⟩

end Nmos6502.Assembly
