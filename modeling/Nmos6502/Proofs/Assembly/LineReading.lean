import Nmos6502.Proofs.Assembly.InstructionLine
import Nmos6502.Proofs.Assembly.Lines
import Nmos6502.Proofs.Text.Quoting

set_option autoImplicit false

namespace Nmos6502

namespace Assembly

open Text Outcome

namespace SourceLine

variable {lead trail text : List Char}

theorem exists_stripComment_append (htrail : ∀ c ∈ trail, isBlank c = true) (text : List Char) :
    ∃ blanks, (∀ c ∈ blanks, isBlank c = true) ∧
      stripComment (text ++ trail) = stripComment text ++ blanks := by
  have hunmarked : ';' ∉ trail := fun hc => (unmarked_of_blank htrail _ hc).1 rfl
  unfold stripComment splitUnquoted?
  cases hcut : splitUnquotedFrom? ';' none [] text with
  | some parts =>
    rw [splitUnquotedFrom?_append_of_some hcut]
    exact ⟨[], by simp, by simp⟩
  | none =>
    rw [splitUnquotedFrom?_append_of_none hcut, splitUnquotedFrom?_eq_none hunmarked]
    exact ⟨trail, htrail, rfl⟩

/-- A comment may be put behind a text that has one already or in which no quote is open. -/
theorem exists_stripComment_comment (htrail : ∀ c ∈ trail, isBlank c = true)
    (hclosed : openQuote text = none ∨ (splitUnquoted? ';' text).isSome = true)
    (comment : List Char) :
    ∃ blanks, (∀ c ∈ blanks, isBlank c = true) ∧
      stripComment (text ++ trail ++ ';' :: comment) = stripComment text ++ blanks := by
  rw [List.append_assoc]
  unfold stripComment
  cases hcut : splitUnquoted? ';' text with
  | some parts =>
    rw [splitUnquoted?, splitUnquotedFrom?_append_of_some hcut]
    exact ⟨[], by simp, by simp⟩
  | none =>
    have hnone : text.foldl quoteAfter none = none := hclosed.resolve_right (by simp [hcut])
    have hhead : splitUnquoted? ';' (';' :: comment) = some ([], comment) := rfl
    have htail := splitUnquoted?_append (unmarked_of_blank htrail) (';' :: comment)
    rw [hhead, splitUnquoted?] at htail
    rw [splitUnquoted?, splitUnquotedFrom?_append_of_none hcut, hnone, splitUnquotedFrom?_seen,
      htail]
    exact ⟨trail, htrail, by simp⟩

theorem labelName?_padded (hlead : ∀ c ∈ lead, isBlank c = true) (head : List Char) :
    labelName? (lead ++ head) = labelName? head := by
  have htrim := trim_padded hlead (by simp : ∀ c ∈ [], isBlank c = true) head
  rw [List.append_nil] at htrim
  rw [labelName?, htrim, labelName?]

theorem exists_splitLabel_padded (hlead : ∀ c ∈ lead, isBlank c = true)
    (htrail : ∀ c ∈ trail, isBlank c = true) (code : List Char) :
    ∃ first last, (∀ c ∈ first, isBlank c = true) ∧ (∀ c ∈ last, isBlank c = true) ∧
      splitLabel (lead ++ code ++ trail) =
        ((splitLabel code).1, first ++ (splitLabel code).2 ++ last) := by
  have hcolon {blanks : List Char} (h : ∀ c ∈ blanks, isBlank c = true) :
      ∀ c ∈ blanks, (c == ':') = false := fun c hc =>
    beq_eq_false_iff_ne.mpr (isMark_eq_false_iff.mp (isMark_of_isBlank (h c hc))).1
  unfold splitLabel
  cases hcut : splitFirst? (· == ':') code with
  | none =>
    have hnone : splitFirst? (· == ':') (lead ++ code ++ trail) = none :=
      splitFirst?_eq_none (List.forall_mem_append.mpr
        ⟨List.forall_mem_append.mpr ⟨hcolon hlead, eq_false_of_splitFirst?_eq_none hcut⟩,
          hcolon htrail⟩)
    rw [hnone]
    exact ⟨lead, trail, hlead, htrail, rfl⟩
  | some parts =>
    obtain ⟨c, hc, hhead, rfl⟩ := eq_of_splitFirst? hcut
    have hcut' : splitFirst? (· == ':') (lead ++ (parts.1 ++ c :: parts.2) ++ trail) =
        some (lead ++ parts.1, parts.2 ++ trail) := by
      rw [← List.append_assoc, List.append_assoc, List.cons_append]
      exact splitFirst?_append (List.forall_mem_append.mpr ⟨hcolon hlead, hhead⟩) hc
    rw [hcut']
    simp only [labelName?_padded hlead]
    cases labelName? parts.1 with
    | none => exact ⟨lead, trail, hlead, htrail, rfl⟩
    | some name => exact ⟨[], trail, by simp, htrail, rfl⟩

/-- Only what is in front of the comment is read, and of that no blanks at the ends. -/
theorem ofText_of_padded {line other : List Char} (hlead : ∀ c ∈ lead, isBlank c = true)
    (htrail : ∀ c ∈ trail, isBlank c = true)
    (h : stripComment line = lead ++ stripComment other ++ trail) : ofText line = ofText other := by
  obtain ⟨first, last, hfirst, hlast, hsplit⟩ :=
    exists_splitLabel_padded hlead htrail (stripComment other)
  simp only [ofText, h, hsplit, Statement.ofText, trim_padded hfirst hlast]

theorem ofText_append_blank (htrail : ∀ c ∈ trail, isBlank c = true) (text : List Char) :
    ofText (text ++ trail) = ofText text := by
  obtain ⟨blanks, hblanks, h⟩ := exists_stripComment_append htrail text
  exact ofText_of_padded (by simp : ∀ c ∈ [], isBlank c = true) hblanks h

theorem ofText_commented (hlead : ∀ c ∈ lead, isBlank c = true)
    (htrail : ∀ c ∈ trail, isBlank c = true)
    (hclosed : openQuote text = none ∨ (splitUnquoted? ';' text).isSome = true)
    (comment : List Char) : ofText (lead ++ (text ++ trail ++ ';' :: comment)) = ofText text := by
  obtain ⟨blanks, hblanks, h⟩ := exists_stripComment_comment htrail hclosed comment
  refine ofText_of_padded hlead hblanks ?_
  rw [stripComment_append (unmarked_of_blank hlead), h, List.append_assoc]

theorem ofText_of_blank (h : ∀ c ∈ stripComment text, isBlank c = true) :
    ofText text = ⟨none, .empty⟩ := by
  have hnil : ofText [] = ⟨none, .empty⟩ := rfl
  rw [← hnil]
  exact ofText_of_padded h (by simp : ∀ c ∈ [], isBlank c = true) (by simp [stripComment]; rfl)

theorem ofText_dropReturn (line : List Char) : ofText (dropReturn line) = ofText line := by
  rw [dropReturn]
  cases hends : dropEnding? ['\r'] line with
  | none => rfl
  | some text =>
    rw [eq_of_dropEnding? hends]
    exact (ofText_append_blank (List.all_eq_true.mp rfl) text).symm

end SourceLine

namespace Layout

variable {layout : Layout} {line : Nat}

theorem addLine_congr {text other : List Char}
    (h : SourceLine.ofText text = SourceLine.ofText other) :
    layout.addLine text line = layout.addLine other line := by
  rw [addLine, h, addLine]

theorem addLine_of_empty {text : List Char} (h : SourceLine.ofText text = ⟨none, .empty⟩) :
    layout.addLine text line = .ok layout := by
  rw [addLine, h]
  rfl

theorem addLines_lines (layout : Layout) (text : List Char) (line : Nat) :
    layout.addLines ((lines text).zipIdx line) =
      layout.addLines ((text.splitOn '\n').zipIdx line) := by
  induction text using feed_induction generalizing layout line with
  | unbroken text hbreak =>
    rw [List.splitOn_eq_singleton hbreak]
    by_cases hnil : text = []
    · subst hnil
      rw [lines_nil]
      exact (bind_eq_ok_iff.mpr ⟨layout, addLine_of_empty rfl, rfl⟩).symm
    · rw [lines_of_unbroken hbreak hnil]
  | feed first rest hbreak ih =>
    rw [lines_append_feed hbreak, List.splitOn_append_cons_self, List.splitOn_eq_singleton hbreak,
      List.singleton_append, List.zipIdx_cons, List.zipIdx_cons, addLines, List.foldlM_cons,
      addLine_congr (SourceLine.ofText_dropReturn first), addLines, List.foldlM_cons]
    congr 1
    funext after
    exact ih after (line + 1)

end Layout

theorem Program.ofSource_eq_splitOn (base : UInt16) (source : List Char) :
    ofSource base source = do
      let layout ← Layout.addLines { cursor := base } ((source.splitOn '\n').zipIdx 1)
      return ⟨layout.records.toList, layout.symbols, layout.constants⟩ := by
  rw [ofSource, Layout.addLines_lines]

def assembleLines (base : UInt16) (lines : List (List Char × Nat)) : Except Error (List UInt8) := do
  let layout ← Layout.addLines { cursor := base } lines
  Program.code ⟨layout.records.toList, layout.symbols, layout.constants⟩

theorem assemble_ofList (base : UInt16) (source : List Char) :
    (Assembler.mk base).assemble (String.ofList source) =
      assembleLines base ((source.splitOn '\n').zipIdx 1) := by
  rw [Assembler.assemble, Assembler.parse, String.toList_ofList, Program.ofSource_eq_splitOn,
    assembleLines]
  cases Layout.addLines { cursor := base } ((source.splitOn '\n').zipIdx 1) <;> rfl

end Assembly
end Nmos6502
