import Nmos6502.Proofs.Assembly.Declarations
import Nmos6502.Proofs.Assembly.NumericOperands

set_option autoImplicit false

namespace Nmos6502

open Text

/-! ### Names in an operand -/

namespace Label

theorem toNat_of_continuesName {c : Char} (h : continuesName c = true) : c.toNat < 128 := by
  rw [continuesName, Bool.or_eq_true, beq_iff_eq] at h
  rcases h with h | rfl
  · delta Char.isAlphanum Char.isAlpha Char.isUpper Char.isLower Char.isDigit at h
    simp only [Bool.or_eq_true, Bool.and_eq_true, decide_eq_true_iff, UInt32.le_iff_toNat_le,
      ge_iff_le] at h
    change ((65 ≤ c.toNat ∧ c.toNat ≤ 90) ∨ (97 ≤ c.toNat ∧ c.toNat ≤ 122)) ∨
      (48 ≤ c.toNat ∧ c.toNat ≤ 57) at h
    omega
  · decide

theorem isBlank_of_continuesName {c : Char} (h : continuesName c = true) : isBlank c = false := by
  have codes : ∀ code < 128, continuesName (Char.ofNat code) = true →
      isBlank (Char.ofNat code) = false := by
    decide
  simpa using codes c.toNat (toNat_of_continuesName h) (by simpa using h)

theorem squash_of_isName {name : List Char} (h : isName name = true) :
    squash name = raise name := by
  have hupper : upper name = raise name := upper_eq_map_toUpper fun c hc =>
    toNat_of_continuesName (continuesName_of_isName h c hc)
  have hraised : isName (raise name) = true := (isName_raise name).trans h
  rw [squash, hupper, removeBlanks_of_none fun c hc =>
    isBlank_of_continuesName (continuesName_of_isName hraised c hc)]

end Label

namespace Assembly

open Outcome SourceLine

/-! ### A line behind a source -/

/-- Whether a text is another one with a line behind it. -/
inductive Extends (source line : List Char) : List Char → Prop
  | feed : Extends source line (source ++ '\n' :: line)
  | ended {front : List Char} (hends : source = front ++ ['\n']) :
      Extends source line (source ++ line)

theorem ofSource_extends {base : UInt16} {source line longer : List Char} {layout : Layout}
    (hline : '\n' ∉ line) (hextends : Extends source line longer)
    (hlayout : Layout.addLines { cursor := base } ((Text.lines source).zipIdx 1) = .ok layout) :
    ∃ number, Program.ofSource base longer = do
      let after ← layout.addLine line number
      return ⟨after.records.toList, after.symbols, after.constants⟩ := by
  have hfeed {front : List Char}
      (hfront : Layout.addLines { cursor := base } ((front.splitOn '\n').zipIdx 1) = .ok layout) :
      ∃ number, Program.ofSource base (front ++ '\n' :: line) = do
        let after ← layout.addLine line number
        return ⟨after.records.toList, after.symbols, after.constants⟩ := by
    refine ⟨1 + (front.splitOn '\n').length, ?_⟩
    rw [Program.ofSource_eq_splitOn, List.splitOn_append_cons_self,
      List.splitOn_eq_singleton hline, List.zipIdx_append, Layout.addLines, List.foldlM_append,
      ← Layout.addLines, hfront]
    cases h : layout.addLine line (1 + (front.splitOn '\n').length) <;>
      simp [bind, Except.bind, pure, Except.pure, h]
  rw [Layout.addLines_lines] at hlayout
  cases hextends with
  | feed => exact hfeed hlayout
  | @ended front hends =>
    subst hends
    rw [List.append_assoc, List.singleton_append]
    refine hfeed ?_
    rw [List.splitOn_append_cons_self, List.zipIdx_append, Layout.addLines, List.foldlM_append,
      bind_eq_ok_iff] at hlayout
    obtain ⟨middle, hfront, hempty⟩ := hlayout
    obtain ⟨after, hafter, hsame⟩ := bind_eq_ok_iff.mp hempty
    cases hsame
    cases (Layout.addLine_of_empty rfl).symm.trans hafter
    exact hfront

theorem Program.code_push (program : Program) (record : Record) :
    code { program with records := program.records ++ [record] } = do
      let code ← program.code
      let chunk ← program.chunk record
      return code ++ chunk := by
  have hchunk : chunk { program with records := program.records ++ [record] } = program.chunk := rfl
  rw [code, code, hchunk, List.mapM_append, List.mapM_cons, List.mapM_nil]
  cases program.records.mapM program.chunk with
  | error error => rfl
  | ok chunks =>
    cases program.chunk record with
    | error error => rfl
    | ok chunk => simp [bind, Except.bind, pure, Except.pure]

theorem Layout.constants_of_addLines {layout after : Layout} {lines : List (List Char × Nat)}
    (hplain : ∀ numbered ∈ lines, (SourceLine.ofText numbered.1).statement.isConstant = false)
    (hconstants : layout.constants = []) (h : layout.addLines lines = .ok after) :
    after.constants = [] := by
  refine @addLines_invariant layout after (fun layout => layout.constants = []) lines
    (fun _ _ _ hbefore _ => hbefore) (fun numbered hmem before after hbefore hexecutes => ?_)
    hconstants h
  rw [hexecutes.constants, hbefore]
  cases hstatement : (SourceLine.ofText numbered.1).statement with
  | constant word operand =>
    have hdefines := hplain numbered hmem
    rw [hstatement] at hdefines
    cases hdefines
  | _ => rfl

/-! ### A line that names a label -/

def branchOpcodes : List (Operation × UInt8) :=
  [(.bpl, 0x10), (.bmi, 0x30), (.bvc, 0x50), (.bvs, 0x70), (.bcc, 0x90), (.bcs, 0xB0),
    (.bne, 0xD0), (.beq, 0xF0)]

theorem chooses_of_mem_branchOpcodes {operation : Operation} {opcode : UInt8}
    (h : (operation, opcode) ∈ branchOpcodes) :
    operation.isBranch = true ∧ operation.Chooses .relative opcode ∧
      (Opcode.ofByte opcode).size = 2 := by
  have table : ∀ entry ∈ branchOpcodes, (Opcode.ofByte entry.2).isDocumented = true ∧
      (Opcode.ofByte entry.2).operation = entry.1 ∧ (Opcode.ofByte entry.2).mode = .relative := by
    decide
  obtain ⟨hdocumented, hoperation, hmode⟩ := table _ h
  have hentry : operation.HasEntry .relative opcode := ⟨hdocumented, hoperation, by rw [hmode]; rfl⟩
  exact ⟨Operation.supports_iff.mpr ⟨opcode, hentry⟩, .own hentry, by rw [Opcode.size, hmode]; rfl⟩

theorem chooses_jmp :
    ¬ Operation.jmp.isBranch = true ∧ Operation.jmp.Chooses .absolute 0x4C := by
  have table : (Opcode.ofByte 0x4C).isDocumented = true ∧ (Opcode.ofByte 0x4C).operation = .jmp ∧
      (Opcode.ofByte 0x4C).mode = .absolute := by
    decide
  obtain ⟨hdocumented, hoperation, hmode⟩ := table
  refine ⟨?_, .own ⟨hdocumented, hoperation, by rw [hmode]; rfl⟩⟩
  rw [← hoperation, Opcode.isBranch_operation_iff hdocumented, hmode]
  exact nofun

theorem not_chooses_implied {operation : Operation}
    (h : operation = .jmp ∨ operation.isBranch = true) (opcode : UInt8) :
    ¬ operation.Chooses .implied opcode := by
  rintro (⟨hdocumented, rfl, hform⟩ | ⟨-, hwide, -⟩)
  · rcases h with hjump | hbranch
    · have hmode := @Opcode.mode_of_isJump opcode (by rw [hjump]; rfl)
      rcases hmode with hmode | hmode <;> rw [hmode] at hform <;> cases hform
    · rw [(Opcode.isBranch_operation_iff hdocumented).mp hbranch] at hform
      cases hform
  · cases hwide

section
variable {operation : Operation} {word target : List Char}
  (hword : Operation.ofMnemonic? (upper word) = some operation)
  (htarget : Label.isName target = true)
include hword htarget

theorem feed_notMem_reference : '\n' ∉ word ++ ' ' :: target := by
  have hblank : ∀ c ∈ word, isBlank c = false :=
    forall_of_upper (fun _ => isSign_of_isBlank) (Operation.isBlank_of_ofMnemonic? hword)
  intro hmem
  rcases List.mem_append.mp hmem with hmem | hmem
  · cases hblank _ hmem
  rcases List.mem_cons.mp hmem with hmem | hmem
  · cases hmem
  · exact Label.notMem_of_isName htarget rfl hmem

theorem ofText_reference :
    ∃ operand, SourceLine.ofText (word ++ ' ' :: target) =
        ⟨none, .instruction (upper word) operand⟩ ∧ removeBlanks operand = raise target := by
  let around : Surroundings := ⟨none, operation, [], word, [' '], [],
    .blank (List.forall_mem_nil _), hword, by decide, List.forall_mem_singleton.mpr rfl,
    List.forall_mem_nil _⟩
  have hline : around.line target = word ++ ' ' :: target := List.append_nil _
  have hraised : Label.isName (raise target) = true := (Label.isName_raise target).trans htarget
  rw [← hline, ← Label.squash_of_isName htarget]
  refine around.ofText_line fun c hc => ?_
  rw [Label.squash_of_isName htarget] at hc
  exact isMark_of_continuesName (Label.continuesName_of_isName hraised c hc)

end

namespace Record

variable {record : Record} {symbols : SymbolTable} {opcode : UInt8} {name : String}
  {symbol : Symbol} (hlookup : symbols.lookup? name = some symbol)
include hlookup

theorem bytes_absolute
    (hcontent : record.content = .instruction opcode (.label name .absolute))
    (hsize : record.size = 3) :
    record.bytes symbols = .ok [opcode, lowByte symbol.address, highByte symbol.address] := by
  simp only [bytes, hcontent, resolve, hlookup, hsize]
  rfl

theorem bytes_branch (hcontent : record.content = .instruction opcode (.label name .branch))
    (hsize : record.size = 2) :
    record.bytes symbols =
      (branchByte record.endAddress symbol.address).map fun offset => [opcode, offset] := by
  simp only [bytes, hcontent, resolve, hlookup, hsize]
  cases branchByte record.endAddress symbol.address with
  | error cause => rfl
  | ok offset => simp [Except.map, operandBytes, lowByte]

end Record

/-! ### One more instruction -/

section
variable {base : UInt16} {source longer : String} {layout : Layout}
  (hlayout : Layout.addLines { cursor := base } ((Text.lines source.toList).zipIdx 1) = .ok layout)

theorem Layout.addLine_instruction {text word operand : List Char} {line : Nat}
    (h : SourceLine.ofText text = ⟨none, .instruction word operand⟩) :
    layout.addLine text line =
      (layout.putInstruction line word operand).mapError (Error.mk line) := by
  rw [addLine, h]
  rfl

include hlayout

theorem assemble_of_put {number : Nat} {word operand text : List Char} {size : UInt16}
    {content : Content}
    (hput : layout.putInstruction number word operand =
      .ok (layout.put number word text size content))
    (hlonger : Program.ofSource base longer.toList = do
      let after ← (layout.putInstruction number word operand).mapError (Error.mk number)
      return ⟨after.records.toList, after.symbols, after.constants⟩) :
    (Assembler.mk base).assemble longer = do
      let code ← (Assembler.mk base).assemble source
      let chunk ← ((layout.nextRecord number word text size content).bytes
        layout.symbols).mapError (Error.mk number)
      return code ++ chunk := by
  have hsource : (Assembler.mk base).parse source =
      .ok ⟨layout.records.toList, layout.symbols, layout.constants⟩ :=
    Program.ofSource_eq_ok_iff.mpr ⟨layout, hlayout, rfl⟩
  have hparse : (Assembler.mk base).parse longer =
      .ok { Program.mk layout.records.toList layout.symbols layout.constants with
        records := layout.records.toList ++
          [layout.nextRecord number word text size content] } := by
    rw [Assembler.parse, hlonger, hput, ← Array.toList_push]
    rfl
  rw [Assembler.assemble, hparse, Assembler.assemble, hsource]
  exact Program.code_push _ _

section
variable {operation : Operation} {word target : List Char}
  (hconstants : layout.constants = [])
  (hword : Operation.ofMnemonic? (upper word) = some operation)
  (htarget : Label.isName target = true)
  (hextends : Extends source.toList (word ++ ' ' :: target) longer.toList)
include hconstants hword htarget hextends

theorem exists_putInstruction :
    ∃ number operand, layout.operandText operand = raise target ∧
      Program.ofSource base longer.toList = do
        let after ← (layout.putInstruction number (upper word) operand).mapError (Error.mk number)
        return ⟨after.records.toList, after.symbols, after.constants⟩ := by
  obtain ⟨operand, hline, hoperand⟩ := ofText_reference hword htarget
  obtain ⟨number, hlonger⟩ :=
    ofSource_extends (feed_notMem_reference hword htarget) hextends hlayout
  refine ⟨number, operand, ?_, ?_⟩
  · rw [Layout.operandText, hconstants]
    exact hoperand
  · rw [hlonger, Layout.addLine_instruction hline]

theorem parse_accumulator (hletter : raise target = ['A'])
    (hlacks : ∀ opcode, ¬ operation.Chooses .implied opcode) :
    ∃ line, (Assembler.mk base).parse longer =
      .error ⟨line, .unsupportedForm (String.ofList (upper word)) .implied⟩ := by
  obtain ⟨number, operand, htext, hlonger⟩ :=
    exists_putInstruction hlayout hconstants hword htarget hextends
  have hread : Layout.readOperand operation (upper word) (layout.operandText operand) =
      .ok .accumulator := by
    rw [htext, hletter, Layout.readOperand_eq_ok_iff]
    split
    · rfl
    · exact Operand.classify_of_spells .accumulator
  refine ⟨number, ?_⟩
  rw [Assembler.parse, hlonger,
    Layout.putInstruction_of_not_chooses hword hread (show InReach _ .accumulator from trivial)
      hlacks]
  rfl

theorem assemble_of_readOperand {read : Operand} {argument : Argument} {opcode : UInt8}
    (hread : Layout.readOperand operation (upper word) (raise target) = .ok read)
    (hargument : Layout.argument layout.cursor read = .ok argument)
    (hopcode : operation.Chooses read.form opcode) :
    ∃ number, (Assembler.mk base).assemble longer = do
      let code ← (Assembler.mk base).assemble source
      let chunk ← ((layout.nextRecord number (upper word) (raise target)
        (UInt16.ofNat (Opcode.ofByte opcode).size) (.instruction opcode argument)).bytes
          layout.symbols).mapError (Error.mk number)
      return code ++ chunk := by
  obtain ⟨number, operand, htext, hlonger⟩ :=
    exists_putInstruction hlayout hconstants hword htarget hextends
  rw [← htext] at hread ⊢
  exact ⟨number, assemble_of_put hlayout
    (Layout.putInstruction_of_chooses hword hread hargument hopcode) hlonger⟩

variable {symbol : Symbol} (hletter : raise target ≠ ['A'])
  (hlookup : layout.symbols.lookup? (String.ofList (raise target)) = some symbol)
include hletter hlookup

theorem assemble_jump (hjump : operation = .jmp) :
    (Assembler.mk base).assemble longer = ((Assembler.mk base).assemble source).map
      (· ++ [0x4C, lowByte symbol.address, highByte symbol.address]) := by
  subst hjump
  have hname : Label.isName (raise target) = true := (Label.isName_raise target).trans htarget
  obtain ⟨hplain, hopcode⟩ := chooses_jmp
  have hread : Layout.readOperand .jmp (upper word) (raise target) =
      .ok (.absolute (.label (String.ofList (raise target))) none) := by
    rw [Layout.readOperand_eq_ok_iff, if_neg hplain]
    have hspells := @Operand.Spells.label _ none hname fun _ => hletter
    rw [Operand.indexLetters, List.append_nil] at hspells
    exact Operand.classify_of_spells hspells
  obtain ⟨number, hassemble⟩ :=
    assemble_of_readOperand hlayout hconstants hword htarget hextends hread rfl hopcode
  rw [hassemble, Record.bytes_absolute hlookup rfl rfl]
  cases (Assembler.mk base).assemble source <;> rfl

theorem assemble_branch {opcode : UInt8} (hbranch : (operation, opcode) ∈ branchOpcodes) :
    (IsNear (layout.cursor + 2) symbol.address →
      (Assembler.mk base).assemble longer = ((Assembler.mk base).assemble source).map
        (· ++ [opcode, lowByte (symbol.address - (layout.cursor + 2))])) ∧
    (¬ IsNear (layout.cursor + 2) symbol.address → ∃ line,
      (Assembler.mk base).assemble longer = do
        let _ ← (Assembler.mk base).assemble source
        .error ⟨line, .branchOutOfRange
          (signedDistance (layout.cursor + 2) symbol.address)⟩) := by
  have hname : Label.isName (raise target) = true := (Label.isName_raise target).trans htarget
  obtain ⟨hisBranch, hopcode, hsize⟩ := chooses_of_mem_branchOpcodes hbranch
  have hread : Layout.readOperand operation (upper word) (raise target) =
      .ok (.branch (.label (String.ofList (raise target)))) := by
    rw [Layout.readOperand_eq_ok_iff, if_pos hisBranch]
    exact Operand.classifyBranch_target (Operand.target?_of_isName hname) hletter
  obtain ⟨number, hassemble⟩ :=
    assemble_of_readOperand hlayout hconstants hword htarget hextends hread rfl hopcode
  have hbytes : (layout.nextRecord number (upper word) (raise target) (UInt16.ofNat 2)
      (.instruction opcode (.label (String.ofList (raise target)) .branch))).bytes layout.symbols =
        (branchByte (layout.cursor + 2) symbol.address).map fun offset => [opcode, offset] :=
    Record.bytes_branch hlookup rfl rfl
  rw [hassemble, hsize, hbytes]
  constructor
  · intro hnear
    have hoffset : branchByte (layout.cursor + 2) symbol.address =
        .ok (lowByte (symbol.address - (layout.cursor + 2))) := if_pos hnear
    rw [hoffset]
    cases (Assembler.mk base).assemble source <;> rfl
  · intro hfar
    refine ⟨number, ?_⟩
    rw [branchByte_eq_error_iff.mpr ⟨hfar, rfl⟩]
    cases (Assembler.mk base).assemble source <;> rfl

end
end

/-- A jump or a branch to any declared label may be put behind a source without constants, in either
letter case. Only the letter `A` names no label there. -/
theorem assemble_reference {base : UInt16} {source : String} {program : Program}
    {text label : List Char}
    (hplain : ∀ text ∈ Text.lines source.toList,
      (SourceLine.ofText text).statement.isConstant = false)
    (hparse : (Assembler.mk base).parse source = .ok program)
    (hmem : text ∈ Text.lines source.toList) (hlabel : writtenLabel? text = some label) :
    ∃ symbol stop, program.symbols.lookup? (String.ofList (raise label)) = some symbol ∧
      Leads base program.records stop ∧
      ∀ (operation : Operation) (word target : List Char) (longer : String),
        Operation.ofMnemonic? (upper word) = some operation → raise target = raise label →
        Extends source.toList (word ++ ' ' :: target) longer.toList →
        (raise label ≠ ['A'] → operation = .jmp →
          (Assembler.mk base).assemble longer = ((Assembler.mk base).assemble source).map
            (· ++ [0x4C, lowByte symbol.address, highByte symbol.address])) ∧
        (raise label ≠ ['A'] → ∀ opcode, (operation, opcode) ∈ branchOpcodes →
          (IsNear (stop + 2) symbol.address →
            (Assembler.mk base).assemble longer = ((Assembler.mk base).assemble source).map
              (· ++ [opcode, lowByte (symbol.address - (stop + 2))])) ∧
          (¬ IsNear (stop + 2) symbol.address → ∃ line,
            (Assembler.mk base).assemble longer = do
              let _ ← (Assembler.mk base).assemble source
              .error ⟨line, .branchOutOfRange (signedDistance (stop + 2) symbol.address)⟩)) ∧
        (raise label = ['A'] →
          operation = .jmp ∨ operation.isBranch = true →
          ∃ line, (Assembler.mk base).parse longer =
            .error ⟨line, .unsupportedForm (String.ofList (upper word)) .implied⟩) := by
  have htable := tabulated_of_parse hparse
  obtain ⟨layout, hlayout, rfl⟩ := Program.ofSource_eq_ok_iff.mp hparse
  have hconstants : layout.constants = [] :=
    Layout.constants_of_addLines (fun numbered hnumbered =>
      hplain numbered.1 (List.fst_mem_of_mem_zipIdx hnumbered)) rfl hlayout
  obtain ⟨before, behind, hlines⟩ := List.append_of_mem hmem
  have hdeclared : (String.ofList (raise label), before.length + 1) ∈
      layout.symbols.declarations := by
    rw [htable.ofLines, mem_declarations_iff]
    exact ⟨before, text, behind, label, hlines, rfl, hlabel, rfl⟩
  obtain ⟨symbol, hsymbol, hsame⟩ := List.mem_map.mp hdeclared
  have hlookup : layout.symbols.lookup? (String.ofList (raise label)) = some symbol :=
    (htable.found _ _).mpr ⟨(Prod.mk.inj hsame).1, hsymbol⟩
  refine ⟨symbol, layout.cursor, hlookup, (Layout.holds_of_addLines hlayout).leads, ?_⟩
  intro operation word target longer hword hsame hextends
  have htarget : Label.isName target = true := by
    rw [← Label.isName_raise, hsame, Label.isName_raise]
    exact isName_of_writtenLabel? hlabel
  rw [← hsame] at hlookup ⊢
  exact ⟨fun hletter => assemble_jump hlayout hconstants hword htarget hextends hletter hlookup,
    fun hletter _ => assemble_branch hlayout hconstants hword htarget hextends hletter hlookup,
    fun hletter hshort => parse_accumulator hlayout hconstants hword htarget hextends hletter
      (not_chooses_implied hshort)⟩

theorem assemble_reference_recased :
    (∀ text ∈ Text.lines "DB 1\nTop:".toList,
      (SourceLine.ofText text).statement.isConstant = false) ∧
    (Assembler.mk 0x0600).assemble "DB 1\nTop:" = .ok [0x01] ∧
    (Assembler.mk 0x0600).assemble "DB 1\nTop:\nJmp tOP" = .ok [0x01, 0x4C, 0x01, 0x06] := by
  have h : (∀ text ∈ Text.lines "DB 1\nTop:".toList,
        (SourceLine.ofText text).statement.isConstant = false) ∧
      (Assembler.mk 0x0600).assemble "DB 1\nTop:" = .ok [0x01] ∧
      ((Assembler.mk 0x0600).parse "DB 1\nTop:").map Program.symbols =
        .ok ⟨#[⟨"TOP", 0x0601, 2⟩]⟩ ∧
      ['T', 'o', 'p', ':'] ∈ Text.lines "DB 1\nTop:".toList ∧
      writtenLabel? ['T', 'o', 'p', ':'] = some ['T', 'o', 'p'] ∧
      "DB 1\nTop:\nJmp tOP".toList =
        "DB 1\nTop:".toList ++ '\n' :: (['J', 'm', 'p'] ++ ' ' :: ['t', 'O', 'P']) := by
    decide +kernel
  obtain ⟨hplain, hassemble, hsymbols, hmem, hlabel, hlonger⟩ := h
  obtain ⟨program, hparse, htable⟩ := map_eq_ok_iff.mp hsymbols
  obtain ⟨symbol, stop, hlookup, -, hreference⟩ := assemble_reference hplain hparse hmem hlabel
  have hsymbol : program.symbols.lookup? (String.ofList (raise ['T', 'o', 'p'])) =
      some ⟨"TOP", 0x0601, 2⟩ := by
    rw [htable]
    decide
  cases hlookup.symm.trans hsymbol
  have hjump := (hreference .jmp ['J', 'm', 'p'] ['t', 'O', 'P'] "DB 1\nTop:\nJmp tOP"
    (by decide +kernel) (by decide) (hlonger ▸ .feed)).1 (by decide) rfl
  rw [hassemble] at hjump
  exact ⟨hplain, hassemble, hjump⟩

/-- A label with the name of the accumulator is declared, and a jump to it is refused. -/
theorem jump_to_accumulator_label :
    ¬ ∀ (base : UInt16) (source : String) (program : Program) (text label : List Char)
        (symbol : Symbol),
      (∀ text ∈ Text.lines source.toList,
        (SourceLine.ofText text).statement.isConstant = false) →
      (Assembler.mk base).parse source = .ok program →
      text ∈ Text.lines source.toList → writtenLabel? text = some label →
      program.symbols.lookup? (String.ofList (raise label)) = some symbol →
      ∀ longer : String, Extends source.toList (['J', 'M', 'P'] ++ ' ' :: label) longer.toList →
        (Assembler.mk base).assemble longer = ((Assembler.mk base).assemble source).map
          (· ++ [0x4C, lowByte symbol.address, highByte symbol.address]) := by
  intro h
  have hsource : (∀ text ∈ Text.lines "A:".toList,
        (SourceLine.ofText text).statement.isConstant = false) ∧
      ((Assembler.mk 0).parse "A:").map (fun program => (program.symbols, program.constants)) =
        .ok (⟨#[⟨"A", 0, 1⟩]⟩, []) ∧
      ['A', ':'] ∈ Text.lines "A:".toList ∧ writtenLabel? ['A', ':'] = some ['A'] ∧
      "A:\nJMP A".toList = "A:".toList ++ '\n' :: (['J', 'M', 'P'] ++ ' ' :: ['A']) ∧
      (Assembler.mk 0).assemble "A:" = .ok [] := by
    decide +kernel
  obtain ⟨hplain, htables, hmem, hlabel, hlonger, hcode⟩ := hsource
  obtain ⟨program, hparse, htable⟩ := map_eq_ok_iff.mp htables
  obtain ⟨hsymbols, hconstants⟩ := Prod.mk.inj htable
  have hlookup : program.symbols.lookup? (String.ofList (raise ['A'])) = some ⟨"A", 0, 1⟩ := by
    rw [hsymbols]
    decide
  have hextends : Extends "A:".toList (['J', 'M', 'P'] ++ ' ' :: ['A']) "A:\nJMP A".toList :=
    hlonger ▸ .feed
  have hjump := h 0 "A:" program _ _ _ hplain hparse hmem hlabel hlookup "A:\nJMP A" hextends
  obtain ⟨layout, hlayout, rfl⟩ := Program.ofSource_eq_ok_iff.mp hparse
  obtain ⟨line, hrefused⟩ := @parse_accumulator 0 _ _ layout hlayout .jmp _ _ hconstants
    (by decide +kernel) rfl hextends (by decide) (not_chooses_implied (.inl rfl))
  rw [Assembler.assemble, hrefused, hcode] at hjump
  cases hjump

end Assembly
end Nmos6502
