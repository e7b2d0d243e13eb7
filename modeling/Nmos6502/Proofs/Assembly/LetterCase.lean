import Nmos6502.Proofs.Assembly.LineReading

set_option autoImplicit false

namespace Nmos6502

namespace Text

theorem toUpper_of_isSign_toUpper {c : Char} (h : isSign c.toUpper = true) : c.toUpper = c := by
  by_cases hascii : c.toNat < 128
  · exact isSign_toUpper hascii h
  · exact toUpper_of_toNat (by omega)

theorem apply_toUpper {p : Char → Bool} (hp : ∀ c, p c = true → isSign c = true) (c : Char) :
    p c.toUpper = p c := by
  rw [Bool.eq_iff_iff]
  constructor
  · intro h
    rwa [toUpper_of_isSign_toUpper (hp _ h)] at h
  · intro h
    rwa [toUpper_of_isSign (hp c h)]

theorem beq_toUpper {sign : Char} (hsign : isSign sign = true) (c : Char) :
    (c.toUpper == sign) = (c == sign) :=
  apply_toUpper (p := fun c => c == sign) (fun c hc => by rwa [eq_of_beq hc]) c

theorem upperChar_toUpper (c : Char) : upperChar c.toUpper = upperChar c :=
  congr_toUpper (by decide) c

def raise (text : List Char) : List Char := text.map Char.toUpper

theorem raise_raise (text : List Char) : raise (raise text) = raise text := by
  rw [raise, raise, List.map_map]
  exact List.map_congr_left fun c _ => toUpper_toUpper c

theorem upper_raise (text : List Char) : upper (raise text) = upper text := by
  simp [upper, raise, List.flatMap_map, upperChar_toUpper]

theorem dropWhile_isBlank_raise (text : List Char) :
    (raise text).dropWhile isBlank = raise (text.dropWhile isBlank) := by
  have hblank : isBlank ∘ Char.toUpper = isBlank :=
    funext (apply_toUpper fun _ => isSign_of_isBlank)
  rw [raise, List.dropWhile_map, hblank, raise]

theorem trim_raise (text : List Char) : trim (raise text) = raise (trim text) := by
  rw [trim, trimStart, dropWhile_isBlank_raise, trimEnd, raise, ← List.map_reverse, ← raise,
    dropWhile_isBlank_raise, raise, ← List.map_reverse]
  rfl

theorem splitFirst?_raise {p : Char → Bool} (hp : ∀ c, p c = true → isSign c = true)
    (text : List Char) :
    splitFirst? p (raise text) = (splitFirst? p text).map (Prod.map raise raise) := by
  induction text with
  | nil => rfl
  | cons c cs ih =>
    change splitFirst? p (c.toUpper :: raise cs) = _
    rw [splitFirst?_cons, splitFirst?_cons, apply_toUpper hp, ih]
    split
    · rfl
    · cases splitFirst? p cs <;> rfl

theorem isSign_of_isQuote {c : Char} (h : isQuote c = true) : isSign c = true :=
  isSign_of_isMark (by simp [isMark, h])

theorem isQuote_of_mem_quoteAfter {quote : Option Char} (hquote : ∀ q ∈ quote, isQuote q = true)
    (c : Char) : ∀ q ∈ quoteAfter quote c, isQuote q = true := by
  cases quote with
  | none =>
    simp only [quoteAfter]
    split
    · simpa
    · simp
  | some q =>
    simp only [quoteAfter]
    split
    · simp
    · exact hquote

/-- Quotes are opened and closed by signs only. -/
theorem quoteAfter_toUpper {quote : Option Char} (hquote : ∀ q ∈ quote, isQuote q = true)
    (c : Char) : quoteAfter quote c.toUpper = quoteAfter quote c := by
  cases quote with
  | none =>
    simp only [quoteAfter, apply_toUpper fun _ => isSign_of_isQuote]
    split
    · rename_i hc
      rw [toUpper_of_isSign (isSign_of_isQuote hc)]
    · rfl
  | some q =>
    simp only [quoteAfter, beq_toUpper (isSign_of_isQuote (hquote q rfl))]

theorem splitUnquotedFrom?_raise {separator : Char} (hseparator : isSign separator = true)
    {quote : Option Char} (hquote : ∀ q ∈ quote, isQuote q = true) (seen text : List Char) :
    splitUnquotedFrom? separator quote (raise seen) (raise text) =
      (splitUnquotedFrom? separator quote seen text).map (Prod.map raise raise) := by
  induction text generalizing quote seen with
  | nil => rfl
  | cons c cs ih =>
    change splitUnquotedFrom? separator quote (raise seen) (c.toUpper :: raise cs) = _
    rw [splitUnquotedFrom?, splitUnquotedFrom?, beq_toUpper hseparator,
      quoteAfter_toUpper hquote]
    split
    · simp [raise]
    · exact ih (isQuote_of_mem_quoteAfter hquote c) (c :: seen)

theorem splitOn_raise (text : List Char) :
    (raise text).splitOn '\n' = (text.splitOn '\n').map raise := by
  have hkeep {line : List Char} (h : '\n' ∉ line) : '\n' ∉ raise line := by
    intro hmem
    obtain ⟨c, hc, hupper⟩ := List.mem_map.mp hmem
    have hsign : isSign c.toUpper = true := by rw [hupper]; rfl
    rw [toUpper_of_isSign_toUpper hsign] at hupper
    exact h (hupper ▸ hc)
  induction text using feed_induction with
  | unbroken line hline =>
    rw [List.splitOn_eq_singleton hline, List.splitOn_eq_singleton (hkeep hline)]
    rfl
  | feed first rest hfirst ih =>
    have hraise : raise (first ++ '\n' :: rest) = raise first ++ '\n' :: raise rest := by
      simp [raise]
    rw [hraise, List.splitOn_append_cons_self, List.splitOn_append_cons_self, ih,
      List.splitOn_eq_singleton hfirst, List.splitOn_eq_singleton (hkeep hfirst)]
    rfl

end Text

namespace Assembly

open Text

namespace SourceLine

theorem stripComment_raise (text : List Char) :
    stripComment (raise text) = raise (stripComment text) := by
  have hcut : splitUnquoted? ';' (raise text) =
      (splitUnquoted? ';' text).map (Prod.map raise raise) :=
    splitUnquotedFrom?_raise (by decide) (by simp) [] text
  rw [stripComment, hcut, stripComment]
  cases splitUnquoted? ';' text <;> rfl

theorem labelName?_raise (head : List Char) : labelName? (raise head) = labelName? head := by
  have hname : (raise (trim head)).map Char.toUpper = (trim head).map Char.toUpper :=
    raise_raise (trim head)
  rw [labelName?, trim_raise, hname, labelName?]

theorem splitLabel_raise (text : List Char) :
    splitLabel (raise text) = ((splitLabel text).1, raise (splitLabel text).2) := by
  have hcolon (c : Char) (hc : (c == ':') = true) : isSign c = true := by
    rw [eq_of_beq hc]
    rfl
  rw [splitLabel, splitFirst?_raise hcolon, splitLabel]
  cases splitFirst? (· == ':') text with
  | none => rfl
  | some parts =>
    simp only [Option.map_some, Prod.map, labelName?_raise]
    cases labelName? parts.1 <;> rfl

theorem ofText_raise (text : List Char) : ofText (raise text) = ofText text := by
  simp only [ofText, stripComment_raise, splitLabel_raise, Statement.ofText, trim_raise,
    upper_raise]

end SourceLine

theorem Layout.addLines_raise (layout : Layout) (lines : List (List Char × Nat)) :
    layout.addLines (lines.map (Prod.map raise id)) = layout.addLines lines := by
  rw [addLines, List.foldlM_map]
  congr 1
  funext layout line
  exact addLine_congr (SourceLine.ofText_raise line.1)

theorem Program.ofSource_raise (base : UInt16) (source : List Char) :
    ofSource base (raise source) = ofSource base source := by
  rw [ofSource_eq_splitOn, splitOn_raise, List.zipIdx_map, Layout.addLines_raise,
    ofSource_eq_splitOn]

theorem parse_toUpper (assembler : Assembler) (source : String) :
    assembler.parse source.toUpper = assembler.parse source := by
  have hraise : source.toUpper.toList = raise source.toList := String.toList_map
  rw [Assembler.parse, hraise, Program.ofSource_raise, Assembler.parse]

/-- The case of letters shows nowhere: sources that are the same in upper case have the same records,
labels and bytes, or the same error. -/
theorem assemble_caseless (assembler : Assembler) {source other : String}
    (h : source.toUpper = other.toUpper) :
    assembler.parse source = assembler.parse other ∧
      assembler.assemble source = assembler.assemble other := by
  have hparse : assembler.parse source = assembler.parse other := by
    rw [← parse_toUpper, h, parse_toUpper]
  exact ⟨hparse, by rw [Assembler.assemble, hparse, Assembler.assemble]⟩

theorem assemble_caseless_mixed :
    let source := "Org $06fF\ndefine Top $2A\nloop: lda Data,x\nBne LOOP\nldx #tOP\ndata: Dcb 'aB'"
    let other := "oRG $06Ff\nDEFINE tOP $2a\nLOOP: LDA dATA,X\nbNE loop\nLDX #Top\nDATA: dCB 'Ab'"
    source.toUpper = other.toUpper ∧
      (Assembler.mk 0).parse source = (Assembler.mk 0).parse other ∧
      (Assembler.mk 0).assemble source = (Assembler.mk 0).assemble other ∧
      (Assembler.mk 0).assemble other =
        .ok [0xBD, 0x06, 0x07, 0xD0, 0xFB, 0xA2, 0x2A, 0x41, 0x42] := by
  intro source other
  have hcase : source.toUpper = other.toUpper := by
    rw [← String.toList_inj, String.toUpper, String.toUpper, String.toList_map, String.toList_map]
    decide
  obtain ⟨hparse, hassemble⟩ := assemble_caseless (Assembler.mk 0) hcase
  exact ⟨hcase, hparse, hassemble, by decide +kernel⟩

end Assembly
end Nmos6502
