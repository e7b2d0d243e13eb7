import Nmos6502.Proofs.Assembly.FaultyLines

/-!
# Label errors

All that the second pass reports is that a label cannot be resolved, and it is classified so. The
first pass reports a cause of that class only where a branch names a number that is too far away.
Main statement: `assemble_labelError`.
-/

set_option autoImplicit false

namespace Nmos6502.Assembly

open Outcome

theorem Cause.isLabelError_of_isSyntaxError {cause : Cause} (h : cause.isSyntaxError = true) :
    cause.isLabelError = false := by
  cases cause <;> first | rfl | cases h

theorem Layout.Strays.isLabelError {layout : Layout} {statement : Statement} {cause : Cause}
    (h : layout.Strays statement cause) : cause.isLabelError = true := by
  cases h
  rfl

/-- Of all that can be wrong with a statement, only a branch to a number counts as a label error. -/
theorem Layout.execute_labelError_iff {layout : Layout} {line : Nat} {statement : Statement}
    {cause : Cause} :
    layout.execute line statement = .error cause ∧ cause.isLabelError = true ↔
      layout.Strays statement cause := by
  constructor
  · rintro ⟨h, hlabel⟩
    refine (execute_eq_error h).resolve_left fun hsyntax => ?_
    rw [Cause.isLabelError_of_isSyntaxError hsyntax] at hlabel
    cases hlabel
  · intro h
    exact ⟨h.execute, h.isLabelError⟩

def StraysIn (base : UInt16) (source : String) (error : Error) : Prop :=
  ∃ before text behind above layout, Text.lines source.toList = before ++ text :: behind ∧
    Layout.addLines { cursor := base } (before.zipIdx 1) = .ok above ∧
    (match (SourceLine.ofText text).label with
      | none => layout = above
      | some name => above.declare (before.length + 1) name = .ok layout) ∧
    layout.Strays (SourceLine.ofText text).statement error.cause ∧ error.line = before.length + 1

theorem parse_labelError_iff {base : UInt16} {source : String} {error : Error} :
    (Assembler.mk base).parse source = .error error ∧ error.isLabelError = true ↔
      StraysIn base source error := by
  rw [parse_eq_error_iff, Error.isLabelError]
  constructor
  · rintro ⟨⟨before, text, behind, above, hlines, habove, hline⟩, hlabel⟩
    obtain ⟨hnumber, ⟨name, -, hdeclare⟩ | ⟨layout, hlayout, hexecute⟩⟩ :=
      Layout.addLine_eq_error_iff.mp hline
    · obtain ⟨first, -, hcause⟩ := Layout.declare_eq_error_iff.mp hdeclare
      rw [hcause] at hlabel
      cases hlabel
    · exact ⟨before, text, behind, above, layout, hlines, habove, hlayout,
        Layout.execute_labelError_iff.mp ⟨hexecute, hlabel⟩, hnumber⟩
  · rintro ⟨before, text, behind, above, layout, hlines, habove, hlayout, hstrays, hnumber⟩
    obtain ⟨hexecute, hlabel⟩ := Layout.execute_labelError_iff.mpr hstrays
    exact ⟨⟨before, text, behind, above, hlines, habove,
      Layout.addLine_eq_error_iff.mpr ⟨hnumber, .inr ⟨layout, hlayout, hexecute⟩⟩⟩, hlabel⟩

/-- What keeps a record from emitting its bytes: a label that no line declares, or one that is too
far away for a branch. -/
inductive Record.Unresolved (record : Record) (symbols : SymbolTable) : Cause → Prop
  | undefined {opcode : UInt8} {name : String} {use : LabelUse}
      (hcontent : record.content = .instruction opcode (.label name use))
      (hlookup : symbols.lookup? name = none) :
      record.Unresolved symbols (.undefinedLabel name)
  | far {opcode : UInt8} {name : String} {symbol : Symbol}
      (hcontent : record.content = .instruction opcode (.label name .branch))
      (hlookup : symbols.lookup? name = some symbol)
      (hfar : ¬ IsNear record.endAddress symbol.address) :
      record.Unresolved symbols
        (.branchOutOfRange (signedDistance record.endAddress symbol.address))

theorem Record.bytes_eq_error_iff {record : Record} {symbols : SymbolTable} {cause : Cause} :
    record.bytes symbols = .error cause ↔ record.Unresolved symbols cause := by
  constructor
  · intro h
    unfold bytes at h
    split at h
    · rename_i opcode argument hcontent
      have hresolve := map_eq_error_iff.mp h
      cases argument with
      | none | value value => cases hresolve
      | label name use =>
        rw [resolve] at hresolve
        split at hresolve
        · rename_i hlookup
          cases hresolve
          exact .undefined hcontent hlookup
        · rename_i symbol hlookup
          cases use with
          | branch =>
            obtain ⟨hfar, rfl⟩ := branchByte_eq_error_iff.mp (map_eq_error_iff.mp hresolve)
            exact .far hcontent hlookup hfar
          | absolute | byte selector => cases hresolve
    · cases h
    · cases h
    · cases h
    · cases h
  · rintro (⟨hcontent, hlookup⟩ | ⟨hcontent, hlookup, hfar⟩)
    · simp only [bytes, hcontent, resolve, hlookup]
      rfl
    · simp only [bytes, hcontent, resolve, hlookup,
        branchByte_eq_error_iff.mpr ⟨hfar, rfl⟩]
      rfl

theorem Record.Unresolved.isLabelError {record : Record} {symbols : SymbolTable} {cause : Cause}
    (h : record.Unresolved symbols cause) : cause.isLabelError = true := by
  cases h <;> rfl

def Program.Unresolved (program : Program) (error : Error) : Prop :=
  ∃ before record behind, program.records = before ++ record :: behind ∧
    (∀ earlier ∈ before, ∃ chunk, earlier.bytes program.symbols = .ok chunk) ∧
      record.Unresolved program.symbols error.cause ∧ error.line = record.line

theorem Program.code_eq_error_iff {program : Program} {error : Error} :
    program.code = .error error ↔ program.Unresolved error := by
  have hchunk (record : Record) : program.chunk record = .error error ↔
      record.Unresolved program.symbols error.cause ∧ error.line = record.line := by
    rw [chunk, mapError_eq_error_iff]
    simp only [Record.bytes_eq_error_iff]
    constructor
    · rintro ⟨cause, hcause, rfl⟩
      exact ⟨hcause, rfl⟩
    · rintro ⟨hcause, hline⟩
      exact ⟨error.cause, hcause, by rw [← hline]⟩
  have hbytes (record : Record) : (∃ chunk, program.chunk record = .ok chunk) ↔
      ∃ chunk, record.bytes program.symbols = .ok chunk :=
    exists_congr fun _ => mapError_eq_ok_iff
  rw [code, bind_eq_error_iff, mapM_eq_error_iff]
  simp only [hchunk, hbytes, Unresolved]
  simp [pure, Except.pure]

/-- An error is classified as one of label resolution just when the first pass succeeds or the
faulty line is a branch to a number. What the second pass reports is the first reference that it
cannot resolve. -/
theorem assemble_labelError {base : UInt16} {source : String} {error : Error}
    (h : (Assembler.mk base).assemble source = .error error) :
    (error.isLabelError = true ↔
      (∃ program, (Assembler.mk base).parse source = .ok program) ∨
        StraysIn base source error) ∧
    (StraysIn base source error → (Assembler.mk base).parse source = .error error) ∧
    ∀ program, (Assembler.mk base).parse source = .ok program → program.Unresolved error := by
  have hresolved (program : Program) (hparse : (Assembler.mk base).parse source = .ok program) :
      program.Unresolved error := by
    rw [Assembler.assemble, hparse] at h
    exact Program.code_eq_error_iff.mp h
  refine ⟨⟨fun hlabel => ?_, ?_⟩, fun hstrays => (parse_labelError_iff.mpr hstrays).1, hresolved⟩
  · rcases bind_eq_error_iff.mp h with hparse | ⟨program, hparse, -⟩
    · exact .inr (parse_labelError_iff.mp ⟨hparse, hlabel⟩)
    · exact .inl ⟨program, hparse⟩
  · rintro (⟨program, hparse⟩ | hstrays)
    · obtain ⟨-, record, -, -, -, hrecord, -⟩ := hresolved program hparse
      exact hrecord.isLabelError
    · exact (parse_labelError_iff.mpr hstrays).2

theorem assemble_labelError_stray :
    (Assembler.mk 0x0600).assemble "DB 1\nTOP: BNE $1000" = .error ⟨2, .branchOutOfRange 2557⟩ ∧
      StraysIn 0x0600 "DB 1\nTOP: BNE $1000" ⟨2, .branchOutOfRange 2557⟩ := by
  have hfails : ((Assembler.mk 0x0600).parse "DB 1\nTOP: BNE $1000").map (fun _ => ()) =
      .error ⟨2, .branchOutOfRange 2557⟩ := by
    decide +kernel
  have hparse := map_eq_error_iff.mp hfails
  have h : (Assembler.mk 0x0600).assemble "DB 1\nTOP: BNE $1000" =
      .error ⟨2, .branchOutOfRange 2557⟩ :=
    bind_eq_error_iff.mpr (.inl hparse)
  rcases (assemble_labelError h).1.mp rfl with ⟨program, hprogram⟩ | hstrays
  · cases hparse.symm.trans hprogram
  · exact ⟨h, hstrays⟩

/-- The first pass fails without any label in the source, and the error counts as one of label
resolution. -/
theorem labelError_without_label :
    ¬ ∀ (base : UInt16) (source : String) (error : Error),
      (Assembler.mk base).assemble source = .error error →
        (error.isLabelError = true ↔
          ∃ program, (Assembler.mk base).parse source = .ok program) := by
  intro h
  have hfails : ((Assembler.mk 0).parse "BNE $1000").map (fun _ => ()) =
      .error ⟨1, .branchOutOfRange 4094⟩ := by
    decide +kernel
  have hparse := map_eq_error_iff.mp hfails
  obtain ⟨program, hprogram⟩ := (h 0 "BNE $1000" _ (bind_eq_error_iff.mpr (.inl hparse))).mp rfl
  cases hparse.symm.trans hprogram

end Nmos6502.Assembly
