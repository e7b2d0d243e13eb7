import Nmos6502.Proofs.Assembly.Placement
import Nmos6502.Proofs.Assembly.Reference

set_option autoImplicit false

namespace Nmos6502.Assembly

open Outcome Text

/-! ### Lines that refer to a label -/

structure ReferenceLine where
  around : Surroundings
  reference : Reference
  label : List Char
  front : List Char
  name : List Char
  back : List Char
  squash_front : squash front = reference.front
  squash_name : squash name = label
  squash_back : squash back = reference.back
  isName : Label.isName label = true
  ne_accumulator : reference = .address none → label ≠ ['A']

namespace ReferenceLine

def text (line : ReferenceLine) (target : List Char) : List Char :=
  line.around.line (line.front ++ target ++ line.back)

theorem ofText_text (line : ReferenceLine) {target : List Char}
    (htarget : ∀ c ∈ squash target, isMark c = false) :
    ∃ operand, SourceLine.ofText (line.text target) =
        ⟨line.around.label, .instruction (upper line.around.word) operand⟩ ∧
      removeBlanks operand = line.reference.letters (squash target) := by
  have hletters : squash (line.front ++ target ++ line.back) =
      line.reference.letters (squash target) := by
    rw [squash_append, squash_append, line.squash_front, line.squash_back, Reference.letters]
  rw [← hletters]
  refine line.around.ofText_line ?_
  rw [hletters]
  exact List.forall_mem_append.mpr
    ⟨List.forall_mem_append.mpr ⟨line.reference.isMark_front, htarget⟩, line.reference.isMark_back⟩

end ReferenceLine

/-- Every line that is read as an instruction with a reference to a label is cut around the label. -/
theorem exists_referenceLine {text word operand : List Char} {declared : Option (List Char)}
    {operation : Operation} {read : Operand} {label : String}
    (hword : Operation.ofMnemonic? word = some operation)
    (hline : SourceLine.ofText text = ⟨declared, .instruction word operand⟩)
    (hread : Layout.readOperand operation word (removeBlanks operand) = .ok read)
    (hlabel : Reference.label? read = some label) :
    ∃ line : ReferenceLine, text = line.text line.name ∧ line.around.operation = operation ∧
      String.ofList line.label = label := by
  obtain ⟨reference, name, hletters, hname, hsame, hletter⟩ :=
    Reference.exists_letters hread hlabel
  have hsome : operand ≠ [] := by
    rintro rfl
    have hempty := congrArg List.length hletters
    have hlength := List.length_pos_of_ne_nil (Label.ne_nil_of_isName hname)
    simp only [removeBlanks, List.filter_nil, List.length_nil, Reference.letters,
      List.length_append] at hempty
    omega
  obtain ⟨around, text, rfl, -, hoperation, -, hsquash⟩ := exists_surroundings hword hsome hline
  obtain ⟨front, middle, back, rfl, hfront, hmiddle, hback⟩ :=
    Reference.exists_cut (hsquash.trans hletters)
  exact ⟨⟨around, reference, name, front, middle, back, hfront, hmiddle, hback, hname, hletter⟩,
    rfl, hoperation, hsame⟩

/-- Whether a line is another one, or is that line with the number of the address in place of a label
that its operand refers to. A number that would be taken for an address in page zero is out. -/
inductive Rewritten (table : SymbolTable) : List Char → List Char → Prop
  | same (text : List Char) : Rewritten table text text
  | numeric (line : ReferenceLine) {symbol : Symbol} {numeral : List Char}
      (hlookup : table.lookup? (String.ofList line.label) = some symbol)
      (hnumeral : squash numeral = '$' :: Hex.wordDigits symbol.address)
      (hlong : ∀ short ∈ line.reference.shortForm?, symbol.address ≤ 0xFF →
        line.around.operation.supports short = false) :
      Rewritten table (line.text line.name) (line.text numeral)

def Statement.isConstant : Statement → Bool
  | constant _ _ => true
  | _ => false

/-! ### Two layouts side by side -/

def Record.Alike (table : SymbolTable) (record other : Record) : Prop :=
  ∀ chunk, record.bytes table = .ok chunk → other.bytes table = .ok chunk

/-- Whether two layouts differ only in how their records say what they emit. -/
structure Layout.Alike (table : SymbolTable) (layout other : Layout) : Prop where
  cursor : other.cursor = layout.cursor
  constants : layout.constants = []
  otherConstants : other.constants = []
  symbols : other.symbols = layout.symbols
  records : List.Forall₂ (Record.Alike table) layout.records.toList other.records.toList

theorem Record.resolve_ofNumber {record : Record} {table : SymbolTable} {operation : Operation}
    {reference : Reference} {label : String} {symbol : Symbol} {argument : Argument}
    {cursor value : UInt16} (hlookup : table.lookup? label = some symbol)
    (hargument : Layout.argument cursor (reference.ofLabel operation label) = .ok argument)
    (hend : operation.isBranch = true → record.endAddress = cursor + 2)
    (hresolve : record.resolve table argument = .ok value) :
    Layout.argument cursor (reference.ofNumber operation symbol.address) = .ok (.value value) := by
  cases reference with
  | half selector =>
    cases hargument
    simp only [resolve, hlookup, Except.ok.injEq] at hresolve
    rw [← hresolve]
    rfl
  | address index =>
    by_cases hbranch : operation.isBranch = true
    · simp only [Reference.ofLabel, hbranch, if_true] at hargument
      cases hargument
      simp only [resolve, hlookup, hend hbranch] at hresolve
      obtain ⟨offset, hoffset, rfl⟩ := map_eq_ok_iff.mp hresolve
      simp only [Reference.ofNumber, hbranch, if_true, Layout.argument, hoffset]
      rfl
    · simp only [Reference.ofLabel, hbranch, Bool.false_eq_true, if_false] at hargument
      cases hargument
      simp only [resolve, hlookup, Except.ok.injEq] at hresolve
      rw [← hresolve, Reference.ofNumber, if_neg hbranch]
      exact Layout.argument_ofNumber ..

namespace Layout.Alike

variable {table : SymbolTable} {layout other after : Layout} {line : Nat}

theorem put (h : layout.Alike table other) {operation operand operand' : List Char} {size : UInt16}
    {content content' : Content}
    (hrecord : Record.Alike table (layout.nextRecord line operation operand size content)
      (other.nextRecord line operation operand' size content')) :
    (layout.put line operation operand size content).Alike table
      (other.put line operation operand' size content') where
  cursor := congrArg (· + size) h.cursor
  constants := h.constants
  otherConstants := h.otherConstants
  symbols := h.symbols
  records := by
    simp only [Layout.put, Array.toList_push]
    exact List.rel_append h.records (.cons hrecord .nil)

theorem putSame (h : layout.Alike table other) (operation operand : List Char) (size : UInt16)
    (content : Content) :
    (layout.put line operation operand size content).Alike table
      (other.put line operation operand size content) := by
  refine h.put ?_
  rw [nextRecord, nextRecord, h.cursor]
  exact fun _ hbytes => hbytes

theorem withLabel (h : layout.Alike table other) (name : String) :
    (layout.withLabel line name).Alike table (other.withLabel line name) := by
  have hdeclared (symbols : SymbolTable) :
      { layout with symbols }.Alike table { other with symbols } :=
    ⟨h.cursor, h.constants, h.otherConstants, rfl, h.records⟩
  have hsymbol : Symbol.mk name other.cursor line = ⟨name, layout.cursor, line⟩ := by rw [h.cursor]
  rw [Layout.withLabel, Layout.withLabel, h.symbols, hsymbol]
  exact (hdeclared _).putSame ..

theorem executes (h : layout.Alike table other) {statement : Statement}
    (hplain : statement.isConstant = false) (hexecutes : layout.Executes line statement after) :
    ∃ after', other.Executes line statement after' ∧ after.Alike table after' := by
  cases hexecutes with
  | empty => exact ⟨other, .empty, h⟩
  | @origin word operand address hnumber =>
    have hmoved : { layout with cursor := address }.Alike table { other with cursor := address } :=
      ⟨rfl, h.constants, h.otherConstants, h.symbols, h.records⟩
    exact ⟨_, .origin hnumber, hmoved.putSame ..⟩
  | data hbytes => exact ⟨_, .data hbytes, h.putSame ..⟩
  | constant hconstant => cases hplain
  | instruction hword hread hargument hopcode =>
    rw [h.constants, ← h.otherConstants] at hread ⊢
    rw [← h.cursor] at hargument
    exact ⟨_, .instruction hword hread hargument hopcode, h.putSame ..⟩

/-- An instruction with the number of an address in place of the label does the same. -/
theorem executes_numeric (h : layout.Alike table other) {word operand operand' name : List Char}
    {reference : Reference} {operation : Operation} {symbol : Symbol}
    (hword : Operation.ofMnemonic? word = some operation) (hname : Label.isName name = true)
    (hletter : reference = .address none → name ≠ ['A'])
    (hlookup : table.lookup? (String.ofList name) = some symbol)
    (hlong : ∀ short ∈ reference.shortForm?, symbol.address ≤ 0xFF →
      operation.supports short = false)
    (htext : removeBlanks operand = reference.letters name)
    (htext' : removeBlanks operand' = reference.letters ('$' :: Hex.wordDigits symbol.address))
    (hexecutes : layout.Executes line (.instruction word operand) after)
    (hemits : ∀ record ∈ after.records, ∃ chunk, record.bytes table = .ok chunk) :
    ∃ after', other.Executes line (.instruction word operand') after' ∧
      after.Alike table after' := by
  cases hexecutes with
  | @instruction _ _ found read argument opcode hfound hread hargument hopcode =>
    obtain rfl : operation = found := Option.some.inj (hword.symm.trans hfound)
    have hconstants : Constant.substitute layout.constants operand = operand := by
      rw [h.constants]
      rfl
    rw [hconstants] at hread hemits ⊢
    have hlabel := hread
    rw [htext] at hlabel
    obtain ⟨hplain, rfl⟩ := Reference.readOperand_label hname hletter hlabel
    obtain ⟨chunk, hchunk⟩ := hemits _ (by rw [Layout.put]; exact Array.mem_push_self)
    obtain ⟨value, hvalue, rfl⟩ := map_eq_ok_iff.mp hchunk
    have hargument' := Record.resolve_ofNumber hlookup hargument (fun hbranch => by
      obtain rfl := hplain hbranch
      simp only [Record.endAddress, Reference.ofLabel, hbranch, if_true]
      rfl) hvalue
    have hform := Reference.form_ofNumber (Option.isSome_iff_exists.mpr ⟨opcode, hopcode⟩) hlong
    have hread' : readOperand operation word
        (removeBlanks (Constant.substitute other.constants operand')) =
          .ok (reference.ofNumber operation symbol.address) := by
      rw [h.otherConstants, show Constant.substitute [] operand' = operand' from rfl, htext']
      exact Reference.readOperand_number hplain symbol.address
    rw [← hform] at hopcode
    refine ⟨_, .instruction hword hread' (h.cursor ▸ hargument') hopcode, ?_⟩
    rw [hform]
    refine h.put fun chunk' hchunk' => ?_
    cases hchunk.symm.trans hchunk'
    rfl

theorem addLine (h : layout.Alike table other) {text text' : List Char}
    (hrewritten : Rewritten table text text')
    (hplain : (SourceLine.ofText text).statement.isConstant = false)
    (hadd : layout.addLine text line = .ok after)
    (hemits : ∀ record ∈ after.records, ∃ chunk, record.bytes table = .ok chunk) :
    ∃ after', other.addLine text' line = .ok after' ∧ after.Alike table after' := by
  obtain ⟨middle, hmiddle, hexecutes⟩ := addLine_eq_ok_iff.mp hadd
  cases hrewritten with
  | same =>
    obtain ⟨middle', hmiddle', halike⟩ :=
      exists_declared h h.symbols (fun name => h.withLabel name) hmiddle
    obtain ⟨after', hexecutes', hafter⟩ := halike.executes hplain hexecutes
    exact ⟨after', addLine_eq_ok_iff.mpr ⟨middle', hmiddle', hexecutes'⟩, hafter⟩
  | numeric source hlookup hnumeral hlong =>
    have hname : ∀ c ∈ squash source.name, isMark c = false := by
      rw [source.squash_name]
      exact fun c hc => isMark_of_continuesName (Label.continuesName_of_isName source.isName c hc)
    obtain ⟨operand, hread, hletters⟩ := source.ofText_text hname
    have hdigits (address : UInt16) : ∀ c ∈ '$' :: Hex.wordDigits address, isMark c = false := by
      refine List.forall_mem_cons.mpr ⟨by decide, List.forall_mem_append.mpr ⟨?_, ?_⟩⟩
      all_goals exact fun c hc =>
        isMark_of_isInk (List.all_eq_true.mp (Hex.all_isInk_byteDigits _) c hc)
    obtain ⟨operand', hread', hletters'⟩ :=
      source.ofText_text fun c hc => hdigits _ c (hnumeral ▸ hc)
    rw [hread] at hmiddle hexecutes
    obtain ⟨middle', hmiddle', halike⟩ :=
      exists_declared h h.symbols (fun name => h.withLabel name) hmiddle
    obtain ⟨after', hexecutes', hafter⟩ := halike.executes_numeric source.around.mnemonic
      source.isName source.ne_accumulator hlookup hlong (by rw [hletters, source.squash_name])
      (by rw [hletters', hnumeral]) hexecutes hemits
    refine ⟨after', addLine_eq_ok_iff.mpr ⟨middle', ?_, ?_⟩, hafter⟩
    · rw [hread']
      exact hmiddle'
    · rw [hread']
      exact hexecutes'

theorem addLines {lines lines' : List (List Char)} (h : layout.Alike table other)
    (hrewritten : List.Forall₂ (Rewritten table) lines lines')
    (hplain : ∀ text ∈ lines, (SourceLine.ofText text).statement.isConstant = false)
    {number : Nat} (hadd : layout.addLines (lines.zipIdx number) = .ok after)
    (hemits : ∀ record ∈ after.records, ∃ chunk, record.bytes table = .ok chunk) :
    ∃ after', other.addLines (lines'.zipIdx number) = .ok after' ∧ after.Alike table after' := by
  induction hrewritten generalizing layout other number with
  | nil =>
    obtain rfl := pure_eq_ok_iff.mp hadd
    exact ⟨other, rfl, h⟩
  | cons hfirst hrest ih =>
    rw [List.zipIdx_cons, Layout.addLines, List.foldlM_cons, bind_eq_ok_iff] at hadd
    obtain ⟨middle, hmiddle, hadd⟩ := hadd
    obtain ⟨hfirstPlain, hrestPlain⟩ := List.forall_mem_cons.mp hplain
    obtain ⟨middle', hmiddle', halike⟩ := h.addLine hfirst hfirstPlain hmiddle fun record hrecord =>
      hemits record (mem_records_of_addLines hrecord hadd)
    obtain ⟨after', hadd', hafter⟩ := ih halike hrestPlain hadd
    refine ⟨after', ?_, hafter⟩
    rw [List.zipIdx_cons, Layout.addLines, List.foldlM_cons, bind_eq_ok_iff]
    exact ⟨middle', hmiddle', hadd'⟩

end Layout.Alike

theorem forall₂_bytes {table : SymbolTable} {records others : List Record}
    {chunks : List (List UInt8)} (halike : List.Forall₂ (Record.Alike table) records others)
    (hbytes : List.Forall₂ (fun record chunk => record.bytes table = .ok chunk) records chunks) :
    List.Forall₂ (fun record chunk => record.bytes table = .ok chunk) others chunks := by
  induction halike generalizing chunks with
  | nil => exact hbytes
  | cons hfirst hrest ih =>
    cases hbytes with
    | cons hchunk hchunks => exact .cons (hfirst _ hchunk) (ih hchunks)

/-- With the numbers of their addresses in place of labels, in any of the operands, a source without
constants is assembled to the same bytes. -/
theorem assemble_rewritten {base : UInt16} {source source' : String} {program : Program}
    {output : List UInt8}
    (hplain : ∀ text ∈ Text.lines source.toList,
      (SourceLine.ofText text).statement.isConstant = false)
    (hparse : (Assembler.mk base).parse source = .ok program)
    (hassemble : (Assembler.mk base).assemble source = .ok output)
    (hrewritten : List.Forall₂ (Rewritten program.symbols) (Text.lines source.toList)
      (Text.lines source'.toList)) :
    (Assembler.mk base).assemble source' = .ok output := by
  have hcode : program.code = .ok output := by
    rw [Assembler.assemble, hparse] at hassemble
    exact hassemble
  obtain ⟨emitted, hrecords, -, hbytes⟩ := exists_emitted hcode
  have hemits : ∀ record ∈ program.records, ∃ chunk,
      record.bytes program.symbols = .ok chunk := by
    intro record hrecord
    rw [hrecords] at hrecord
    obtain ⟨placed, hplaced, rfl⟩ := List.mem_map.mp hrecord
    exact ⟨placed.2, hbytes placed hplaced⟩
  obtain ⟨chunks, hchunks, rfl⟩ := Program.code_eq_ok_iff.mp hcode
  obtain ⟨layout, hlines, rfl⟩ := Program.ofSource_eq_ok_iff.mp hparse
  have hstart : Layout.Alike layout.symbols { cursor := base } { cursor := base } :=
    ⟨rfl, rfl, rfl, rfl, .nil⟩
  obtain ⟨layout', hlines', halike⟩ := hstart.addLines hrewritten hplain hlines
    fun record hrecord => hemits record (Array.mem_toList_iff.mpr hrecord)
  have hparse' : (Assembler.mk base).parse source' =
      .ok ⟨layout'.records.toList, layout'.symbols, layout'.constants⟩ :=
    Program.ofSource_eq_ok_iff.mpr ⟨layout', hlines', rfl⟩
  rw [Assembler.assemble, hparse']
  refine Program.code_eq_ok_iff.mpr ⟨chunks, ?_, rfl⟩
  rw [halike.symbols]
  exact forall₂_bytes halike.records hchunks

theorem assemble_rewritten_across_end :
    (∀ text ∈ Text.lines "TOP: LDY #<TOP\nBNE top ;x".toList,
      (SourceLine.ofText text).statement.isConstant = false) ∧
    (Assembler.mk 0xFFFE).assemble "TOP: LDY #<TOP\nBNE top ;x" = .ok [0xA0, 0xFE, 0xD0, 0xFC] ∧
    (∃ program, (Assembler.mk 0xFFFE).parse "TOP: LDY #<TOP\nBNE top ;x" = .ok program ∧
      List.Forall₂ (Rewritten program.symbols) (Text.lines "TOP: LDY #<TOP\nBNE top ;x".toList)
        (Text.lines "TOP: LDY #<$FFFE\nBNE $FFFE ;x".toList)) ∧
    (Assembler.mk 0xFFFE).assemble "TOP: LDY #<$FFFE\nBNE $FFFE ;x" =
      .ok [0xA0, 0xFE, 0xD0, 0xFC] := by
  have h : (∀ text ∈ Text.lines "TOP: LDY #<TOP\nBNE top ;x".toList,
        (SourceLine.ofText text).statement.isConstant = false) ∧
      (Assembler.mk 0xFFFE).assemble "TOP: LDY #<TOP\nBNE top ;x" =
        .ok [0xA0, 0xFE, 0xD0, 0xFC] ∧
      ((Assembler.mk 0xFFFE).parse "TOP: LDY #<TOP\nBNE top ;x").map Program.symbols =
        .ok ⟨#[⟨"TOP", 0xFFFE, 1⟩]⟩ ∧
      Text.lines "TOP: LDY #<TOP\nBNE top ;x".toList =
        [['T', 'O', 'P', ':', ' ', 'L', 'D', 'Y', ' ', '#', '<', 'T', 'O', 'P'],
          ['B', 'N', 'E', ' ', 't', 'o', 'p', ' ', ';', 'x']] ∧
      Text.lines "TOP: LDY #<$FFFE\nBNE $FFFE ;x".toList =
        [['T', 'O', 'P', ':', ' ', 'L', 'D', 'Y', ' ', '#', '<', '$', 'F', 'F', 'F', 'E'],
          ['B', 'N', 'E', ' ', '$', 'F', 'F', 'F', 'E', ' ', ';', 'x']] := by
    decide +kernel
  obtain ⟨hplain, hassemble, hsymbols, hlines, hlines'⟩ := h
  obtain ⟨program, hparse, htable⟩ := map_eq_ok_iff.mp hsymbols
  have hlookup : program.symbols.lookup? "TOP" = some ⟨"TOP", 0xFFFE, 1⟩ := by
    rw [htable]
    decide
  have hnumeral : squash ['$', 'F', 'F', 'F', 'E'] = '$' :: Hex.wordDigits 0xFFFE := by
    decide +kernel
  have hload : Rewritten program.symbols
      ['T', 'O', 'P', ':', ' ', 'L', 'D', 'Y', ' ', '#', '<', 'T', 'O', 'P']
      ['T', 'O', 'P', ':', ' ', 'L', 'D', 'Y', ' ', '#', '<', '$', 'F', 'F', 'F', 'E'] :=
    .numeric ⟨⟨some ['T', 'O', 'P'], .ldy, ['T', 'O', 'P'] ++ ':' :: [' '], ['L', 'D', 'Y'], [' '],
        [], .label rfl (List.forall_mem_singleton.mpr rfl), by decide +kernel, by decide,
        List.forall_mem_singleton.mpr rfl, List.forall_mem_nil _⟩,
      .half .low, ['T', 'O', 'P'], ['#', '<'], ['T', 'O', 'P'], [], by decide +kernel,
      by decide +kernel, rfl, by decide, by decide⟩
      hlookup hnumeral (by decide)
  have hbranch : Rewritten program.symbols ['B', 'N', 'E', ' ', 't', 'o', 'p', ' ', ';', 'x']
      ['B', 'N', 'E', ' ', '$', 'F', 'F', 'F', 'E', ' ', ';', 'x'] :=
    .numeric ⟨⟨none, .bne, [], ['B', 'N', 'E'], [' '], [' ', ';', 'x'],
        .blank (List.forall_mem_nil _), by decide +kernel, by decide,
        List.forall_mem_singleton.mpr rfl, List.forall_mem_singleton.mpr rfl⟩,
      .address none, ['T', 'O', 'P'], [], ['t', 'o', 'p'], [], by decide +kernel,
      by decide +kernel, rfl, by decide, by decide⟩
      hlookup hnumeral (by decide +kernel)
  have hrewritten : List.Forall₂ (Rewritten program.symbols)
      (Text.lines "TOP: LDY #<TOP\nBNE top ;x".toList)
      (Text.lines "TOP: LDY #<$FFFE\nBNE $FFFE ;x".toList) := by
    rw [hlines, hlines']
    exact .cons hload (.cons hbranch .nil)
  exact ⟨hplain, hassemble, ⟨program, hparse, hrewritten⟩,
    assemble_rewritten hplain hparse hassemble hrewritten⟩

end Nmos6502.Assembly
