import Mathlib.Data.Prod.Lex
import Mathlib.Data.String.Basic
import Nmos6502.Proofs.Assembly.LabelErrors
import Nmos6502.Proofs.Assembly.LetterCase

set_option autoImplicit false

namespace Nmos6502

open Text

theorem Label.isName_raise (text : List Char) : isName (raise text) = isName text := by
  have hstarts (c : Char) : startsName c.toUpper = startsName c :=
    congr_toUpper (by decide +kernel) c
  have hcontinues (c : Char) : continuesName c.toUpper = continuesName c :=
    congr_toUpper (by decide +kernel) c
  cases text with
  | nil => rfl
  | cons c cs =>
    have hrest : continuesName ∘ Char.toUpper = continuesName := funext hcontinues
    simp only [raise, List.map_cons, isName, List.all_map, hstarts, hrest]

namespace Assembly

open Outcome

/-! ### The label of a line -/

namespace SourceLine

def writtenLabel? (text : List Char) : Option (List Char) :=
  match splitFirst? (· == ':') (stripComment text) with
  | some (head, _) => if Label.isName (trim head) then some (trim head) else none
  | none => none

theorem isName_of_writtenLabel? {text written : List Char} (h : writtenLabel? text = some written) :
    Label.isName written = true := by
  unfold writtenLabel? at h
  split at h
  · split at h
    · rename_i hname
      cases h
      exact hname
    · cases h
  · cases h

theorem label_ofText (text : List Char) :
    (ofText text).label = (writtenLabel? text).map raise := by
  have hname (head : List Char) : Label.isName ((trim head).map Char.toUpper) =
      Label.isName (trim head) := Label.isName_raise (trim head)
  rw [ofText, writtenLabel?, splitLabel]
  cases splitFirst? (· == ':') (stripComment text) with
  | none => rfl
  | some parts =>
    simp only [labelName?, hname]
    by_cases hlabel : Label.isName (trim parts.1) = true
    · simp only [if_pos hlabel, Option.map_some, raise]
    · simp only [if_neg hlabel, Option.map_none]

end SourceLine

open SourceLine

def declarations (lines : List (List Char × Nat)) : List (String × Nat) :=
  lines.filterMap fun numbered =>
    (writtenLabel? numbered.1).map fun written => (String.ofList (raise written), numbered.2)

def SymbolTable.declarations (table : SymbolTable) : List (String × Nat) :=
  table.entries.toList.map fun symbol => (symbol.name, symbol.line)

namespace Layout

variable {layout after : Layout} {line : Nat}

def newSymbol? (layout : Layout) (text : List Char) (line : Nat) : Option Symbol :=
  (writtenLabel? text).map fun written => ⟨String.ofList (raise written), layout.cursor, line⟩

theorem Executes.symbols {statement : Statement}
    (h : layout.Executes line statement after) : after.symbols = layout.symbols := by
  cases h <;> rfl

theorem entries_of_addLine {text : List Char} (h : layout.addLine text line = .ok after) :
    after.symbols.entries.toList =
      layout.symbols.entries.toList ++ (layout.newSymbol? text line).toList := by
  obtain ⟨middle, hmiddle, hexecutes⟩ := addLine_eq_ok_iff.mp h
  rw [hexecutes.symbols]
  rw [label_ofText] at hmiddle
  unfold newSymbol?
  cases hwritten : writtenLabel? text with
  | none =>
    rw [hwritten] at hmiddle
    obtain rfl := hmiddle
    simp
  | some written =>
    rw [hwritten] at hmiddle
    obtain ⟨-, rfl⟩ := declare_eq_ok_iff.mp hmiddle
    simp [withLabel, put]

theorem declarations_of_addLine {text : List Char} (h : layout.addLine text line = .ok after) :
    after.symbols.declarations = layout.symbols.declarations ++ declarations [(text, line)] := by
  rw [SymbolTable.declarations, entries_of_addLine h, List.map_append, SymbolTable.declarations,
    newSymbol?, declarations]
  cases hwritten : writtenLabel? text <;> simp [hwritten]

theorem entries_prefix_of_addLines {lines : List (List Char × Nat)}
    (h : layout.addLines lines = .ok after) :
    layout.symbols.entries.toList <+: after.symbols.entries.toList := by
  induction lines generalizing layout with
  | nil =>
    obtain rfl := pure_eq_ok_iff.mp h
    exact List.prefix_rfl
  | cons numbered lines ih =>
    rw [addLines, List.foldlM_cons, bind_eq_ok_iff] at h
    obtain ⟨middle, hline, hrest⟩ := h
    refine List.IsPrefix.trans ?_ (ih hrest)
    rw [entries_of_addLine hline]
    exact List.prefix_append _ _

theorem declarations_of_addLines {lines : List (List Char × Nat)}
    (h : layout.addLines lines = .ok after) :
    after.symbols.declarations = layout.symbols.declarations ++ declarations lines := by
  induction lines generalizing layout with
  | nil =>
    obtain rfl := pure_eq_ok_iff.mp h
    simp [declarations]
  | cons numbered lines ih =>
    rw [addLines, List.foldlM_cons, bind_eq_ok_iff] at h
    obtain ⟨middle, hline, hrest⟩ := h
    rw [ih hrest, declarations_of_addLine hline, List.append_assoc]
    simp only [declarations, ← List.filterMap_append, List.singleton_append]

end Layout

/-! ### The order of listing -/

def Symbol.place (symbol : Symbol) : ℕ ×ₗ String := toLex (symbol.address.toNat, symbol.name)

/-- Whether a symbol comes before another by address, then by name. -/
def Symbol.Precedes (a b : Symbol) : Prop :=
  a.address < b.address ∨ a.address = b.address ∧ a.name < b.name

theorem Symbol.place_lt_iff {a b : Symbol} : a.place < b.place ↔ a.Precedes b := by
  rw [place, place, Prod.Lex.toLex_lt_toLex, Precedes, UInt16.lt_iff_toNat_lt, ← UInt16.toNat_inj]

theorem Symbol.listedBefore_iff {a b : Symbol} : a.listedBefore b = true ↔ a.place ≤ b.place := by
  rw [place, place, Prod.Lex.toLex_le_toLex, listedBefore, Bool.or_eq_true, decide_eq_true_iff,
    Bool.and_eq_true, beq_iff_eq, Bool.not_eq_true', decide_eq_false_iff_not, String.not_lt,
    UInt16.lt_iff_toNat_lt, UInt16.toNat_inj]

theorem SymbolTable.sorted_perm (table : SymbolTable) :
    table.sorted.Perm table.entries.toList :=
  List.mergeSort_perm _ _

theorem SymbolTable.pairwise_precedes {table : SymbolTable}
    (hdistinct : (table.entries.toList.map Symbol.name).Nodup) :
    table.sorted.Pairwise Symbol.Precedes := by
  have hordered : table.sorted.Pairwise fun a b => a.listedBefore b = true := by
    refine List.pairwise_mergeSort ?_ ?_ _
    · intro a b c hab hbc
      rw [Symbol.listedBefore_iff] at hab hbc ⊢
      exact hab.trans hbc
    · intro a b
      rw [Bool.or_eq_true, Symbol.listedBefore_iff, Symbol.listedBefore_iff]
      exact le_total a.place b.place
  have hnames : (table.sorted.map Symbol.name).Nodup :=
    (table.sorted_perm.map Symbol.name).nodup_iff.mpr hdistinct
  refine hordered.imp₂ (fun a b hle hne => ?_) (List.pairwise_map.mp hnames)
  refine Symbol.place_lt_iff.mp (lt_of_le_of_ne (Symbol.listedBefore_iff.mp hle) fun heq => hne ?_)
  exact congrArg (fun place => (ofLex place).2) heq

/-! ### Tables of sources -/

/-- What the table of a source holds. -/
structure Tabulated (base : UInt16) (source : String) (program : Program) : Prop where
  ofRecords : program.symbols.entries.toList = program.records.filterMap Record.symbol?
  ofLines : program.symbols.declarations = declarations ((Text.lines source.toList).zipIdx 1)
  upperCase : ∀ symbol ∈ program.symbols.entries.toList,
    Label.isName symbol.name.toList = true ∧ raise symbol.name.toList = symbol.name.toList
  distinct : (program.symbols.entries.toList.map Symbol.name).Nodup
  found : ∀ name symbol, program.symbols.lookup? name = some symbol ↔
    symbol.name = name ∧ symbol ∈ program.symbols.entries.toList
  listed : program.symbols.sorted.Perm program.symbols.entries.toList
  increasing : program.symbols.sorted.Pairwise Symbol.Precedes
  grows : ∀ above text below, Text.lines source.toList = above ++ text :: below →
    ∃ before after, Layout.addLines { cursor := base } (above.zipIdx 1) = .ok before ∧
      before.addLine text (above.length + 1) = .ok after ∧
      after.symbols.entries.toList = before.symbols.entries.toList ++
        (before.newSymbol? text (above.length + 1)).toList ∧
      after.symbols.entries.toList <+: program.symbols.entries.toList
  emits : ∀ code, (Assembler.mk base).assemble source = .ok code →
    ∃ chunks, List.Forall₂ (fun record chunk => record.bytes program.symbols = .ok chunk)
      program.records chunks ∧ code = chunks.flatten
  fails : ∀ error, (Assembler.mk base).assemble source = .error error → program.Unresolved error

theorem Layout.holds_of_addLines {base : UInt16} {layout : Layout} {lines : List (List Char × Nat)}
    (h : Layout.addLines { cursor := base } lines = .ok layout) : layout.Holds base :=
  have hstart : Layout.Holds base { cursor := base } := Sound.start base
  hstart.addLines h

theorem Sound.lookup?_eq_some_iff_mem {base cursor : UInt16} {records : List Record}
    {symbols : SymbolTable} (h : Sound base records symbols cursor) {name : String}
    {symbol : Symbol} :
    symbols.lookup? name = some symbol ↔ symbol.name = name ∧ symbol ∈ symbols.entries.toList := by
  rw [h.lookup?_eq_some_iff, h.declared, List.mem_filterMap]

theorem mem_declarations_iff {lines : List (List Char)} {name : String} {first : Nat} :
    (name, first) ∈ declarations (lines.zipIdx 1) ↔
      ∃ before declaring between written, lines = before ++ declaring :: between ∧
        first = before.length + 1 ∧ writtenLabel? declaring = some written ∧
          name = String.ofList (raise written) := by
  simp only [declarations, List.mem_filterMap, Option.map_eq_some_iff, Prod.mk.injEq]
  constructor
  · rintro ⟨⟨declaring, number⟩, hmem, written, hwritten, rfl, rfl⟩
    obtain ⟨numbered, rest, hlines⟩ := List.append_of_mem hmem
    obtain ⟨before, behind, rfl, rfl, hbehind⟩ := List.zipIdx_eq_append_iff.mp hlines
    obtain ⟨text, between, rfl, hfirst, -⟩ := List.zipIdx_eq_cons_iff.mp hbehind.symm
    obtain ⟨rfl, rfl⟩ := Prod.mk.inj hfirst
    exact ⟨before, declaring, between, written, rfl, Nat.add_comm _ _, hwritten, rfl⟩
  · rintro ⟨before, declaring, between, written, rfl, rfl, hwritten, rfl⟩
    refine ⟨(declaring, before.length + 1), ?_, written, hwritten, rfl, rfl⟩
    rw [List.zipIdx_append, List.zipIdx_cons, Nat.add_comm]
    exact List.mem_append_right _ List.mem_cons_self

theorem tabulated_of_parse {base : UInt16} {source : String} {program : Program}
    (h : (Assembler.mk base).parse source = .ok program) : Tabulated base source program := by
  obtain ⟨stop, hsound⟩ := sound_of_parse h
  obtain ⟨layout, hlines, hprogram⟩ := Program.ofSource_eq_ok_iff.mp h
  have hsymbols : program.symbols = layout.symbols := by rw [hprogram]
  have hdeclarations : program.symbols.declarations =
      declarations ((Text.lines source.toList).zipIdx 1) := by
    rw [hsymbols, Layout.declarations_of_addLines hlines]
    rfl
  exact
    { ofRecords := hsound.declared
      ofLines := hdeclarations
      upperCase := by
        intro symbol hsymbol
        have hmem : (symbol.name, symbol.line) ∈ program.symbols.declarations :=
          List.mem_map.mpr ⟨symbol, hsymbol, rfl⟩
        rw [hdeclarations, mem_declarations_iff] at hmem
        obtain ⟨-, declaring, -, written, -, -, hwritten, hname⟩ := hmem
        rw [hname, String.toList_ofList, Label.isName_raise, raise_raise]
        exact ⟨isName_of_writtenLabel? hwritten, rfl⟩
      distinct := hsound.distinct
      found := fun name symbol => hsound.lookup?_eq_some_iff_mem
      listed := program.symbols.sorted_perm
      increasing := SymbolTable.pairwise_precedes hsound.distinct
      grows := by
        intro above text below hsource
        rw [hsource] at hlines
        obtain ⟨before, after, habove, hline, hbelow⟩ := Layout.addLines_append_eq_ok_iff.mp hlines
        rw [Nat.add_comm] at hline
        refine ⟨before, after, habove, hline, Layout.entries_of_addLine hline, ?_⟩
        rw [hsymbols]
        exact Layout.entries_prefix_of_addLines hbelow
      emits := by
        intro code hcode
        rw [Assembler.assemble, h] at hcode
        exact Program.code_eq_ok_iff.mp hcode
      fails := by
        intro error herror
        rw [Assembler.assemble, h] at herror
        exact Program.code_eq_error_iff.mp herror }

/-- Whether the first faulty line of a source declares a name that a line above it has declared, in
either letter case. -/
def Redeclares (base : UInt16) (source : String) (line : Nat) (name : String) (first : Nat) :
    Prop :=
  ∃ above text below layout written, Text.lines source.toList = above ++ text :: below ∧
    Layout.addLines { cursor := base } (above.zipIdx 1) = .ok layout ∧ line = above.length + 1 ∧
    writtenLabel? text = some written ∧ name = String.ofList (raise written) ∧
    ∃ before declaring between earlier, above = before ++ declaring :: between ∧
      first = before.length + 1 ∧ writtenLabel? declaring = some earlier ∧
        raise earlier = raise written

theorem Layout.declare_eq_duplicateLabel_iff {base : UInt16} {above : List (List Char)}
    {layout : Layout} {line first : Nat} {written : List Char} {name : String}
    (h : Layout.addLines { cursor := base } (above.zipIdx 1) = .ok layout) :
    layout.declare line (raise written) = .error (.duplicateLabel name first) ↔
      name = String.ofList (raise written) ∧
        ∃ before declaring between earlier, above = before ++ declaring :: between ∧
          first = before.length + 1 ∧ writtenLabel? declaring = some earlier ∧
            raise earlier = raise written := by
  have hsound := holds_of_addLines h
  have hdeclarations : layout.symbols.declarations = declarations (above.zipIdx 1) := by
    rw [declarations_of_addLines h]
    rfl
  have hsame {earlier : List Char} : String.ofList (raise written) = String.ofList (raise earlier) ↔
      raise earlier = raise written := by
    rw [String.ofList_inj, eq_comm]
  simp only [← hsame, ← mem_declarations_iff, ← hdeclarations, declare_eq_error_iff]
  simp only [Sound.lookup?_eq_some_iff_mem hsound, SymbolTable.declarations, List.mem_map]
  constructor
  · rintro ⟨symbol, ⟨hname, hmem⟩, hcause⟩
    obtain ⟨rfl, rfl⟩ := Cause.duplicateLabel.inj hcause
    exact ⟨hname, symbol, hmem, by rw [hname]⟩
  · rintro ⟨rfl, symbol, hmem, hsymbol⟩
    obtain ⟨hname, rfl⟩ := Prod.mk.inj hsymbol
    exact ⟨symbol, ⟨hname, hmem⟩, by rw [hname]⟩

theorem parse_eq_duplicateLabel_iff {base : UInt16} {source : String} {line first : Nat}
    {name : String} :
    (Assembler.mk base).parse source = .error ⟨line, .duplicateLabel name first⟩ ↔
      Redeclares base source line name first := by
  rw [parse_eq_error_iff]
  constructor
  · rintro ⟨above, text, below, layout, hlines, habove, hline⟩
    obtain ⟨hnumber, ⟨label, hlabel, hdeclare⟩ | ⟨middle, -, hexecute⟩⟩ :=
      Layout.addLine_eq_error_iff.mp hline
    · rw [label_ofText] at hlabel
      obtain ⟨written, hwritten, rfl⟩ := Option.map_eq_some_iff.mp hlabel
      obtain ⟨hname, hfirst⟩ := (Layout.declare_eq_duplicateLabel_iff habove).mp hdeclare
      exact ⟨above, text, below, layout, written, hlines, habove, hnumber, hwritten, hname, hfirst⟩
    · rcases Layout.execute_eq_error hexecute with hsyntax | hstrays
      · cases hsyntax
      · cases hstrays.isLabelError
  · rintro ⟨above, text, below, layout, written, hlines, habove, hnumber, hwritten, hname, hfirst⟩
    refine ⟨above, text, below, layout, hlines, habove, Layout.addLine_eq_error_iff.mpr
      ⟨hnumber, .inl ⟨raise written, ?_, ?_⟩⟩⟩
    · rw [label_ofText, hwritten]
      rfl
    · exact (Layout.declare_eq_duplicateLabel_iff habove).mpr ⟨hname, hfirst⟩

/-- The table of a source holds what the lines declare, and a source whose lines declare a name
twice has none. -/
theorem parse_tabulates (base : UInt16) (source : String) :
    (∀ program, (Assembler.mk base).parse source = .ok program → Tabulated base source program) ∧
      ∀ line name first, (Assembler.mk base).parse source =
          .error ⟨line, .duplicateLabel name first⟩ ↔ Redeclares base source line name first :=
  ⟨fun _ => tabulated_of_parse, fun _ _ _ => parse_eq_duplicateLabel_iff⟩

theorem parse_tabulates_shared_address :
    (∃ program, (Assembler.mk 0x0600).parse "b:\nTail: DB 1\nORG $10\na:" = .ok program ∧
      Tabulated 0x0600 "b:\nTail: DB 1\nORG $10\na:" program ∧
      program.symbols.entries = #[⟨"B", 0x0600, 1⟩, ⟨"TAIL", 0x0600, 2⟩, ⟨"A", 0x0010, 4⟩]) ∧
    Redeclares 0x0600 "DB 1\nTop:\ntOP : DB 2" 3 "TOP" 2 := by
  have hentries : ((Assembler.mk 0x0600).parse "b:\nTail: DB 1\nORG $10\na:").map
      (fun program => program.symbols.entries) =
        .ok #[⟨"B", 0x0600, 1⟩, ⟨"TAIL", 0x0600, 2⟩, ⟨"A", 0x0010, 4⟩] := by
    decide +kernel
  have htwice : ((Assembler.mk 0x0600).parse "DB 1\nTop:\ntOP : DB 2").map (fun _ => ()) =
      .error ⟨3, .duplicateLabel "TOP" 2⟩ := by
    decide +kernel
  obtain ⟨program, hparse, hlist⟩ := map_eq_ok_iff.mp hentries
  exact ⟨⟨program, hparse, (parse_tabulates _ _).1 program hparse, hlist⟩,
    ((parse_tabulates _ _).2 _ _ _).mp (map_eq_error_iff.mp htwice)⟩

end Assembly
end Nmos6502
