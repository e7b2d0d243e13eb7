import Nmos6502.Proofs.Assembly.LineReading

/-!
# Text that changes nothing

A comment behind a line, blanks around it, and lines without anything but blanks and a comment leave
the code of a source as it is. Where lines move down, the numbers of lines in an error follow them.
Main statement: `assemble_inert`.
-/

set_option autoImplicit false

namespace Nmos6502.Assembly

open Outcome Text

/-! ### Numbering lines anew -/

def Cause.renumber (f : Nat → Nat) : Cause → Cause
  | .duplicateLabel name firstLine => .duplicateLabel name (f firstLine)
  | cause => cause

def Error.renumber (f : Nat → Nat) (error : Error) : Error :=
  ⟨f error.line, error.cause.renumber f⟩

def Record.renumber (f : Nat → Nat) (record : Record) : Record :=
  { record with line := f record.line }

def Symbol.renumber (f : Nat → Nat) (symbol : Symbol) : Symbol :=
  { symbol with line := f symbol.line }

def SymbolTable.renumber (f : Nat → Nat) (table : SymbolTable) : SymbolTable :=
  ⟨table.entries.map (Symbol.renumber f)⟩

def Layout.renumber (f : Nat → Nat) (layout : Layout) : Layout :=
  { layout with
    records := layout.records.map (Record.renumber f)
    symbols := layout.symbols.renumber f }

def Program.renumber (f : Nat → Nat) (program : Program) : Program :=
  { program with
    records := program.records.map (Record.renumber f)
    symbols := program.symbols.renumber f }

section
variable {f : Nat → Nat}

theorem SymbolTable.lookup?_renumber (table : SymbolTable) (name : String) :
    (table.renumber f).lookup? name = (table.lookup? name).map (Symbol.renumber f) := by
  rw [lookup?, renumber, Array.find?_map]
  rfl

theorem renumber_of_branchByte {source target : UInt16} {cause : Cause}
    (h : branchByte source target = .error cause) : cause.renumber f = cause := by
  unfold branchByte at h
  dsimp only at h
  split at h
  · cases h
  · cases h
    rfl

theorem Data.renumber_of_bytes {operand : List Char} {cause : Cause}
    (h : Data.bytes operand = .error cause) : cause.renumber f = cause := by
  unfold Data.bytes at h
  rcases bind_eq_error_iff.mp h with hitems | ⟨parts, -, hparts⟩
  · obtain ⟨-, item, -, -, -, hitem⟩ := mapM_eq_error_iff.mp hitems
    split at hitem
    · cases hitem
    · cases hitem
      rfl
  · cases hparts

namespace Layout

variable {layout : Layout} {line : Nat}

theorem renumber_of_readOperand {operation : Operation} {word text : List Char} {cause : Cause}
    (h : readOperand operation word text = .error cause) : cause.renumber f = cause := by
  unfold readOperand at h
  dsimp only at h
  split at h
  · cases h
    rfl
  · cases h
    rfl
  · cases h

theorem renumber_of_argument {address : UInt16} {read : Operand} {cause : Cause}
    (h : argument address read = .error cause) : cause.renumber f = cause := by
  cases read with
  | branch target =>
    cases target with
    | number value => exact renumber_of_branchByte (map_eq_error_iff.mp h)
    | label name => cases h
  | absolute target index => cases target <;> cases h
  | _ => cases h

theorem put_renumber (operation operand : List Char) (size : UInt16) (content : Content) :
    (layout.renumber f).put (f line) operation operand size content =
      (layout.put line operation operand size content).renumber f := by
  simp [put, renumber, Record.renumber]

def renumbered (f : Nat → Nat) (outcome : Except Cause Layout) : Except Cause Layout :=
  (outcome.mapError (Cause.renumber f)).map (renumber f)

theorem declare_renumber (name : List Char) :
    (layout.renumber f).declare (f line) name = renumbered f (layout.declare line name) := by
  simp only [declare, SymbolTable.add?, renumber, SymbolTable.lookup?_renumber]
  cases layout.symbols.lookup? (String.ofList name) with
  | some first => rfl
  | none =>
    simp only [Option.map_none, renumbered, Except.mapError, Except.map, ← put_renumber]
    simp [renumber, SymbolTable.renumber, Symbol.renumber]

theorem putInstruction_renumber (word operand : List Char) :
    (layout.renumber f).putInstruction (f line) word operand =
      renumbered f (layout.putInstruction line word operand) := by
  unfold putInstruction
  cases Operation.ofMnemonic? word with
  | none => rfl
  | some operation =>
    simp only [renumber]
    cases hread : readOperand operation word
        (removeBlanks (Constant.substitute layout.constants operand)) with
    | error cause => exact congrArg Except.error (renumber_of_readOperand hread).symm
    | ok read =>
      cases hargument : argument layout.cursor read with
      | error cause =>
        simp only [bind, Except.bind, hargument]
        exact congrArg Except.error (renumber_of_argument hargument).symm
      | ok argument =>
        simp only [bind, Except.bind, hargument]
        cases operation.opcode? (operation.assembledForm read.form) with
        | none => rfl
        | some opcode => exact congrArg Except.ok (put_renumber ..)

theorem execute_renumber (statement : Statement) :
    (layout.renumber f).execute (f line) statement =
      renumbered f (layout.execute line statement) := by
  cases statement with
  | empty => rfl
  | origin word operand =>
    simp only [execute, setOrigin]
    cases Numeral.value? operand with
    | none => rfl
    | some address =>
      exact congrArg Except.ok
        (@put_renumber f { layout with cursor := address } line word operand 0 .origin)
  | data word operand =>
    simp only [execute, putData]
    cases hbytes : Data.bytes operand with
    | error cause => exact congrArg Except.error (Data.renumber_of_bytes hbytes).symm
    | ok bytes => exact congrArg Except.ok (put_renumber ..)
  | constant word operand =>
    simp only [execute, define]
    cases constant? operand with
    | none => rfl
    | some constant =>
      exact congrArg Except.ok
        (@put_renumber f { layout with constants := constant.define layout.constants } line word
          operand 0 (.constant constant.name constant.value))
  | instruction word operand => exact putInstruction_renumber word operand

theorem addLine_renumber (text : List Char) :
    (layout.renumber f).addLine text (f line) =
      ((layout.addLine text line).mapError (Error.renumber f)).map (renumber f) := by
  unfold addLine addSourceLine
  cases (SourceLine.ofText text).label with
  | none =>
    simp only [pure, Except.pure, bind, Except.bind, execute_renumber, renumbered]
    cases layout.execute line (SourceLine.ofText text).statement <;> rfl
  | some name =>
    simp only [declare_renumber, renumbered]
    cases layout.declare line name with
    | error cause => rfl
    | ok middle =>
      simp only [Except.mapError, Except.map, bind, Except.bind, execute_renumber, renumbered]
      cases middle.execute line (SourceLine.ofText text).statement <;> rfl

/-- A numbering of the lines shows in the numbers of records, symbols and errors only. -/
theorem addLines_renumber (lines : List (List Char × Nat)) :
    (layout.renumber f).addLines (lines.map fun line => (line.1, f line.2)) =
      ((layout.addLines lines).mapError (Error.renumber f)).map (renumber f) := by
  induction lines generalizing layout with
  | nil => rfl
  | cons first rest ih =>
    simp only [addLines] at ih
    simp only [addLines, List.map_cons, List.foldlM_cons, addLine_renumber]
    cases layout.addLine first.1 first.2 with
    | error error => rfl
    | ok after => exact ih

end Layout

namespace Record

variable {record : Record} {symbols : SymbolTable} {argument : Argument}

theorem resolve_renumber :
    (record.renumber f).resolve (symbols.renumber f) argument =
      record.resolve symbols argument := by
  cases argument with
  | none | value value => rfl
  | label name use =>
    simp only [resolve, SymbolTable.lookup?_renumber]
    cases symbols.lookup? name with
    | none => rfl
    | some symbol => cases use <;> rfl

theorem renumber_of_resolve {cause : Cause} (h : record.resolve symbols argument = .error cause) :
    cause.renumber f = cause := by
  cases argument with
  | none | value value => cases h
  | label name use =>
    rw [resolve] at h
    split at h
    · cases h
      rfl
    · cases use with
      | branch => exact renumber_of_branchByte (map_eq_error_iff.mp h)
      | absolute | byte selector => cases h

theorem bytes_renumber :
    (record.renumber f).bytes (symbols.renumber f) =
      (record.bytes symbols).mapError (Cause.renumber f) := by
  have hsame : (record.renumber f).content = record.content := rfl
  unfold bytes
  rw [hsame]
  cases record.content with
  | instruction opcode argument =>
    simp only [resolve_renumber]
    cases hvalue : record.resolve symbols argument with
    | error cause => exact congrArg Except.error (renumber_of_resolve hvalue).symm
    | ok value => rfl
  | origin | label name | constant name value | data bytes => rfl

end Record

theorem Program.code_renumber (program : Program) :
    (program.renumber f).code = program.code.mapError (Error.renumber f) := by
  have hchunk (record : Record) : (program.renumber f).chunk (record.renumber f) =
      (program.chunk record).mapError (Error.renumber f) := by
    have hbytes := @Record.bytes_renumber f record program.symbols
    rw [chunk, chunk, show (program.renumber f).symbols = program.symbols.renumber f from rfl,
      hbytes]
    cases record.bytes program.symbols <;> rfl
  rw [code, code, show (program.renumber f).records = program.records.map (Record.renumber f)
    from rfl, mapM_map_mapError hchunk]
  cases program.records.mapM program.chunk <;> rfl

end

/-! ### Numbered lines -/

theorem assembleLines_renumber (f : Nat → Nat) (base : UInt16) (lines : List (List Char × Nat)) :
    assembleLines base (lines.map fun line => (line.1, f line.2)) =
      (assembleLines base lines).mapError (Error.renumber f) := by
  have hstart : Layout.renumber f { cursor := base } = { cursor := base } := by
    simp [Layout.renumber, SymbolTable.renumber]
  have hlines := @Layout.addLines_renumber f { cursor := base } lines
  rw [hstart] at hlines
  rw [assembleLines, assembleLines, hlines]
  cases Layout.addLines { cursor := base } lines with
  | error error => rfl
  | ok layout =>
    have hcode := Program.code_renumber (f := f)
      ⟨layout.records.toList, layout.symbols, layout.constants⟩
    simpa [Layout.renumber, Program.renumber, Except.mapError, Except.map, bind, Except.bind]
      using hcode

section
variable {base : UInt16} {above below : List (List Char × Nat)} {text other : List Char}

theorem assembleLines_congr (h : SourceLine.ofText text = SourceLine.ofText other) (line : Nat) :
    assembleLines base (above ++ (text, line) :: below) =
      assembleLines base (above ++ (other, line) :: below) := by
  simp only [assembleLines, Layout.addLines, List.foldlM_append, List.foldlM_cons,
    Layout.addLine_congr h]

theorem assembleLines_of_empty (h : SourceLine.ofText text = ⟨none, .empty⟩) (line : Nat) :
    assembleLines base (above ++ (text, line) :: below) = assembleLines base (above ++ below) := by
  simp only [assembleLines, Layout.addLines, List.foldlM_append, List.foldlM_cons,
    Layout.addLine_of_empty h]
  rfl

end

theorem map_zipIdx_eq {α : Type} {f : Nat → Nat} {xs : List α} {m n : Nat}
    (h : ∀ i < xs.length, f (m + i) = n + i) :
    (xs.zipIdx m).map (fun x => (x.1, f x.2)) = xs.zipIdx n := by
  induction xs generalizing m n with
  | nil => rfl
  | cons x xs ih =>
    have hfirst : f m = n := h 0 (Nat.zero_lt_succ _)
    have hrest : (xs.zipIdx (m + 1)).map (fun x => (x.1, f x.2)) = xs.zipIdx (n + 1) := by
      apply ih
      intro i hi
      have hnext := h (i + 1) (Nat.succ_lt_succ hi)
      rw [Nat.add_assoc, Nat.add_comm 1 i, hnext]
      omega
    rw [List.zipIdx_cons, List.zipIdx_cons, List.map_cons, hrest, hfirst]

/-! ### Lines in a source -/

def StartsLine (before : List Char) : Prop := before = [] ∨ ∃ text, before = text ++ ['\n']

def EndsLine (after : List Char) : Prop :=
  after = [] ∨ ∃ text, after = '\n' :: text ∨ after = '\r' :: '\n' :: text

/-- Whether a line holds nothing but blanks and perhaps a comment. -/
def IsInert (line : List Char) : Prop :=
  '\n' ∉ line ∧ ∃ blanks, (∀ c ∈ blanks, isBlank c = true) ∧
    (line = blanks ∨ ∃ comment, line = blanks ++ ';' :: comment)

/-- The number of a line when one more is put behind the first `count` lines. -/
def movedDown (count line : Nat) : Nat := if line ≤ count then line else line + 1

theorem lines_append_last_feed (text : List Char) :
    lines (text ++ ['\n']) = (text.splitOn '\n').map dropReturn := by
  induction text using feed_induction with
  | unbroken text hbreak =>
    rw [lines_append_feed hbreak, lines_nil, List.splitOn_eq_singleton hbreak, List.map_singleton]
  | feed first rest hbreak ih =>
    rw [List.append_assoc, List.cons_append, lines_append_feed hbreak, ih,
      List.splitOn_append_cons_self, List.splitOn_eq_singleton hbreak, List.singleton_append,
      List.map_cons]

theorem StartsLine.exists_above {before : List Char} (h : StartsLine before) :
    ∃ above : List (List Char), above.length = (lines before).length ∧
      ∀ rest, (before ++ rest).splitOn '\n' = above ++ rest.splitOn '\n' := by
  rcases h with rfl | ⟨text, rfl⟩
  · exact ⟨[], by rw [lines_nil], fun rest => rfl⟩
  · refine ⟨text.splitOn '\n', by rw [lines_append_last_feed, List.length_map], fun rest => ?_⟩
    rw [List.append_assoc, List.singleton_append, List.splitOn_append_cons_self]

theorem EndsLine.exists_below {after : List Char} (h : EndsLine after) :
    ∃ (trail : List Char) (below : List (List Char)), (∀ c ∈ trail, isBlank c = true) ∧
      ∀ line, '\n' ∉ line → (line ++ after).splitOn '\n' = (line ++ trail) :: below := by
  rcases h with rfl | ⟨text, rfl | rfl⟩
  · refine ⟨[], [], by simp, fun line hline => ?_⟩
    rw [List.append_nil, List.splitOn_eq_singleton hline]
  · refine ⟨[], text.splitOn '\n', by simp, fun line hline => ?_⟩
    rw [List.splitOn_append_cons_self, List.splitOn_eq_singleton hline, List.append_nil,
      List.singleton_append]
  · refine ⟨['\r'], text.splitOn '\n', List.all_eq_true.mp rfl, fun line hline => ?_⟩
    have hreturn : '\n' ∉ line ++ ['\r'] := by simpa using hline
    rw [List.append_cons, List.splitOn_append_cons_self, List.splitOn_eq_singleton hreturn,
      List.singleton_append]

theorem IsInert.ofText {line : List Char} (h : IsInert line) :
    SourceLine.ofText line = ⟨none, .empty⟩ := by
  obtain ⟨-, blanks, hblanks, hline⟩ := h
  have hstrip (rest : List Char) (hrest : SourceLine.stripComment rest = []) :
      ∀ c ∈ SourceLine.stripComment (blanks ++ rest), isBlank c = true := by
    rw [SourceLine.stripComment_append (SourceLine.unmarked_of_blank hblanks), hrest,
      List.append_nil]
    exact hblanks
  apply SourceLine.ofText_of_blank
  rcases hline with rfl | ⟨comment, rfl⟩
  · rw [← List.append_nil line]
    exact hstrip [] rfl
  · exact hstrip (';' :: comment) rfl

section
variable {base : UInt16} {before line after : List Char}

theorem assemble_commented {lead trail comment : List Char} (hbefore : StartsLine before)
    (hafter : EndsLine after) (hline : '\n' ∉ line)
    (hclosed : openQuote line = none ∨ (splitUnquoted? ';' line).isSome = true)
    (hblanks : ∀ c ∈ lead ++ trail, isBlank c = true ∧ c ≠ '\n') (hcomment : '\n' ∉ comment) :
    (Assembler.mk base).assemble
        (String.ofList (before ++ (lead ++ line ++ trail ++ ';' :: comment) ++ after)) =
      (Assembler.mk base).assemble (String.ofList (before ++ line ++ after)) := by
  obtain ⟨above, -, habove⟩ := hbefore.exists_above
  obtain ⟨ending, below, hending, hbelow⟩ := hafter.exists_below
  obtain ⟨hlead, htrail⟩ := List.forall_mem_append.mp hblanks
  have hcommented : '\n' ∉ lead ++ line ++ trail ++ ';' :: comment := by
    have hlead' : '\n' ∉ lead := fun hc => (hlead _ hc).2 rfl
    have htrail' : '\n' ∉ trail := fun hc => (htrail _ hc).2 rfl
    simp [hlead', htrail', hline, hcomment]
  have hread : SourceLine.ofText (lead ++ line ++ trail ++ ';' :: comment ++ ending) =
      SourceLine.ofText (line ++ ending) := by
    rw [SourceLine.ofText_append_blank hending, SourceLine.ofText_append_blank hending,
      ← SourceLine.ofText_commented (fun c hc => (hlead c hc).1) (fun c hc => (htrail c hc).1)
        hclosed comment]
    simp only [List.append_assoc]
  rw [assemble_ofList, assemble_ofList, List.append_assoc before, List.append_assoc before,
    habove, habove, hbelow _ hcommented, hbelow _ hline, List.zipIdx_append, List.zipIdx_append,
    List.zipIdx_cons, List.zipIdx_cons]
  exact assembleLines_congr hread _

theorem assemble_inserted (hbefore : StartsLine before) (hline : IsInert line) :
    (Assembler.mk base).assemble (String.ofList (before ++ line ++ '\n' :: after)) =
      ((Assembler.mk base).assemble (String.ofList (before ++ after))).mapError
        (Error.renumber (movedDown (lines before).length)) := by
  obtain ⟨above, hcount, habove⟩ := hbefore.exists_above
  have hkept : (above.zipIdx 1).map (fun x => (x.1, movedDown (lines before).length x.2)) =
      above.zipIdx 1 := by
    apply map_zipIdx_eq
    intro i hi
    rw [movedDown, if_pos (by omega)]
  have hmoved : ((after.splitOn '\n').zipIdx (above.length + 1)).map
        (fun x => (x.1, movedDown (lines before).length x.2)) =
      (after.splitOn '\n').zipIdx (above.length + 1 + 1) := by
    apply map_zipIdx_eq
    intro i hi
    rw [movedDown, if_neg (by omega)]
    omega
  rw [assemble_ofList, assemble_ofList, ← assembleLines_renumber, List.append_assoc, habove,
    habove, List.splitOn_append_cons_self, List.splitOn_eq_singleton hline.1,
    List.singleton_append, List.zipIdx_append, List.zipIdx_append, List.map_append, hkept,
    Nat.add_comm 1, hmoved]
  exact assembleLines_of_empty hline.ofText _

theorem assemble_appended {source : List Char} (hline : IsInert line) :
    (Assembler.mk base).assemble (String.ofList (source ++ '\n' :: line)) =
      (Assembler.mk base).assemble (String.ofList source) := by
  rw [assemble_ofList, assemble_ofList, List.splitOn_append_cons_self,
    List.splitOn_eq_singleton hline.1, List.zipIdx_append, List.zipIdx_singleton]
  exact (assembleLines_of_empty hline.ofText _).trans (by rw [List.append_nil])

end

/-- Comments, indentation and lines without text do not show in the code of a source. -/
theorem assemble_inert (base : UInt16) :
    (∀ before line after lead trail comment : List Char, StartsLine before → EndsLine after →
      '\n' ∉ line → (openQuote line = none ∨ (splitUnquoted? ';' line).isSome = true) →
      (∀ c ∈ lead ++ trail, isBlank c = true ∧ c ≠ '\n') → '\n' ∉ comment →
      (Assembler.mk base).assemble
          (String.ofList (before ++ (lead ++ line ++ trail ++ ';' :: comment) ++ after)) =
        (Assembler.mk base).assemble (String.ofList (before ++ line ++ after))) ∧
    (∀ before line after : List Char, StartsLine before → IsInert line →
      (Assembler.mk base).assemble (String.ofList (before ++ line ++ '\n' :: after)) =
        ((Assembler.mk base).assemble (String.ofList (before ++ after))).mapError
          (Error.renumber (movedDown (lines before).length))) ∧
    (∀ source line : List Char, IsInert line →
      (Assembler.mk base).assemble (String.ofList (source ++ '\n' :: line)) =
        (Assembler.mk base).assemble (String.ofList source)) :=
  ⟨fun _ _ _ _ _ _ => assemble_commented, fun _ _ _ => assemble_inserted,
    fun _ _ => assemble_appended⟩

theorem assemble_inert_quoted :
    let first := "TOP: NOP\r\n".toList
    let line := "DCB ';'".toList
    let rest := "\r\nTOP: NOP".toList
    (Assembler.mk 0x0600).assemble (String.ofList (first ++ line ++ rest)) =
        .error ⟨3, .duplicateLabel "TOP" 1⟩ ∧
      (Assembler.mk 0x0600).assemble
          (String.ofList (first ++ (" ".toList ++ line ++ "\t".toList ++ ';' :: "it's: 1".toList) ++
            rest)) = .error ⟨3, .duplicateLabel "TOP" 1⟩ ∧
      (Assembler.mk 0x0600).assemble
          (String.ofList (first ++ " ;'".toList ++ '\n' :: (line ++ rest))) =
        .error ⟨4, .duplicateLabel "TOP" 1⟩ ∧
      (Assembler.mk 0x0600).assemble
          (String.ofList (first ++ line ++ rest ++ '\n' :: " ;'".toList)) =
        .error ⟨3, .duplicateLabel "TOP" 1⟩ := by
  intro first line rest
  have h : (Assembler.mk 0x0600).assemble (String.ofList (first ++ line ++ rest)) =
      .error ⟨3, .duplicateLabel "TOP" 1⟩ := by
    decide +kernel
  have hfirst : StartsLine first := .inr ⟨"TOP: NOP\r".toList, by decide⟩
  have hrest : EndsLine rest := .inr ⟨"TOP: NOP".toList, .inr (by decide)⟩
  have hinert : IsInert " ;'".toList :=
    ⟨by decide, [' '], List.all_eq_true.mp rfl, .inr ⟨['\''], by decide⟩⟩
  have hblanks : ∀ c ∈ [' '] ++ ['\t'], isBlank c = true ∧ c ≠ '\n' := by
    simp
    decide
  obtain ⟨hcommented, hinserted, happended⟩ := assemble_inert 0x0600
  refine ⟨h, ?_, ?_, (happended _ _ hinert).trans h⟩
  · exact (hcommented first line rest [' '] ['\t'] "it's: 1".toList hfirst hrest (by decide)
      (.inl (by decide)) hblanks (by decide)).trans h
  · rw [hinserted first _ _ hfirst hinert, ← List.append_assoc, h]
    decide +kernel

end Nmos6502.Assembly
