import Nmos6502.Assembly.Data
import Nmos6502.Proofs.OperandReading
import Nmos6502.Proofs.Text.Quoting
import Nmos6502.Proofs.Text.Squashing

set_option autoImplicit false

namespace Nmos6502.Assembly.Data

open Text Outcome

inductive Denotes : List Char → List UInt8 → Prop
  | number {numeral : List Char} {value : UInt16} (hvalue : Numeral.value? numeral = some value) :
      Denotes numeral [lowByte value]
  | quoted {quote : Char} (hquote : isQuote quote = true) (text : List Char) :
      Denotes (quote :: (text ++ [quote])) (text.map charByte)

/-- An item as it is meant to be written: a number, or text between two quotes that has no such
quote in it. -/
inductive Item where
  | number (numeral : List Char) (value : UInt16) (hvalue : Numeral.value? numeral = some value)
  | quoted (quote : Char) (text : List Char) (hquote : isQuote quote = true) (htext : quote ∉ text)

namespace Item

def letters : Item → List Char
  | number numeral _ _ => numeral
  | quoted quote text _ _ => quote :: (text ++ [quote])

def bytes : Item → List UInt8
  | number _ value _ => [lowByte value]
  | quoted _ text _ _ => text.map charByte

theorem denotes (item : Item) : Denotes item.letters item.bytes := by
  cases item with
  | number numeral value hvalue => exact .number hvalue
  | quoted quote text hquote htext => exact .quoted hquote text

end Item

def IsProper (text : List Char) : Prop := ∃ item : Item, item.letters = text

/-- Whether a text starts with a quote, ends with the same one, and has it inside once more. -/
def RepeatsQuote (text : List Char) : Prop :=
  ∃ quote inner, isQuote quote = true ∧ quote ∈ inner ∧ text = quote :: (inner ++ [quote])

theorem exists_denotes_iff {text : List Char} :
    (∃ part, Denotes text part) ↔ IsProper text ∨ RepeatsQuote text := by
  constructor
  · rintro ⟨part, hpart⟩
    cases hpart with
    | number hvalue => exact .inl ⟨.number _ _ hvalue, rfl⟩
    | @quoted quote hquote inner =>
      by_cases hinner : quote ∈ inner
      · exact .inr ⟨quote, inner, hquote, hinner, rfl⟩
      · exact .inl ⟨.quoted quote inner hquote hinner, rfl⟩
  · rintro (⟨item, rfl⟩ | ⟨quote, inner, hquote, -, rfl⟩)
    · exact ⟨_, item.denotes⟩
    · exact ⟨_, .quoted hquote inner⟩

/-! ### What is read as data -/

theorem quoted?_eq_some_iff {item text : List Char} :
    quoted? item = some text ↔
      ∃ quote, isQuote quote = true ∧ item = quote :: (text ++ [quote]) := by
  cases item with
  | nil => simp [quoted?]
  | cons c rest =>
    constructor
    · intro h
      rw [quoted?] at h
      split at h
      · rename_i hquote
        exact ⟨c, hquote, by rw [eq_of_dropEnding? h]⟩
      · cases h
    · rintro ⟨quote, hquote, heq⟩
      obtain ⟨rfl, rfl⟩ := List.cons.inj heq
      rw [quoted?, if_pos hquote, dropEnding?_append]

theorem isQuote_of_value? {numeral : List Char} {value : UInt16}
    (h : Numeral.value? numeral = some value) : ∀ c ∈ numeral, isQuote c = false := by
  intro c hc
  have hglyphs : Numeral.glyphs.all (fun c => !isQuote c) = true := by decide
  simpa using List.all_eq_true.mp hglyphs c (Numeral.mem_glyphs_of_value? h hc)

theorem item?_eq_some_iff {item : List Char} {part : List UInt8} :
    item? item = some part ↔ Denotes item part := by
  constructor
  · intro h
    rw [item?] at h
    split at h
    · rename_i text hquoted
      cases h
      obtain ⟨quote, hquote, rfl⟩ := quoted?_eq_some_iff.mp hquoted
      exact .quoted hquote text
    · obtain ⟨value, hvalue, rfl⟩ := Option.map_eq_some_iff.mp h
      exact .number hvalue
  · intro h
    cases h with
    | @quoted quote hquote text =>
      rw [item?, quoted?_eq_some_iff.mpr ⟨quote, hquote, rfl⟩]
    | @number _ value hvalue =>
      have hplain : quoted? item = none := by
        rw [Option.eq_none_iff_forall_ne_some]
        intro text hquoted
        obtain ⟨quote, hquote, rfl⟩ := quoted?_eq_some_iff.mp hquoted
        rw [isQuote_of_value? hvalue quote List.mem_cons_self] at hquote
        cases hquote
      simp only [item?, hplain, hvalue, Option.map_some]

def read (item : List Char) : Except Cause (List UInt8) :=
  match item? item with
  | some part => .ok part
  | none => .error (.invalidData (String.ofList item))

theorem read_eq_ok_iff {item : List Char} {part : List UInt8} :
    read item = .ok part ↔ Denotes item part := by
  rw [read, ← item?_eq_some_iff]
  cases item? item <;> simp

theorem read_eq_error_iff {item : List Char} {cause : Cause} :
    read item = .error cause ↔
      (∀ part, ¬ Denotes item part) ∧ cause = .invalidData (String.ofList item) := by
  simp only [read, ← item?_eq_some_iff]
  cases item? item <;> simp [eq_comm]

theorem bytes_eq_mapM_read (operand : List Char) :
    bytes operand = (items operand).mapM read >>= fun parts => pure parts.flatten :=
  rfl

theorem bytes_eq_ok_iff {operand : List Char} {code : List UInt8} :
    bytes operand = .ok code ↔
      ∃ parts, List.Forall₂ Denotes (items operand) parts ∧ code = parts.flatten := by
  simp only [bytes_eq_mapM_read, bind_eq_ok_iff, mapM_eq_ok_iff, read_eq_ok_iff, pure_eq_ok_iff,
    eq_comm (b := code)]

theorem bytes_eq_error_iff {operand : List Char} {cause : Cause} :
    bytes operand = .error cause ↔
      ∃ before item behind, items operand = before ++ item :: behind ∧
        (∀ other ∈ before, ∃ part, Denotes other part) ∧
        (∀ part, ¬ Denotes item part) ∧ cause = .invalidData (String.ofList item) := by
  simp only [bytes_eq_mapM_read, bind_eq_error_iff, mapM_eq_error_iff, read_eq_ok_iff,
    read_eq_error_iff]
  simp [pure, Except.pure]

theorem denotes_of_bytes {operand : List Char} {code : List UInt8} (h : bytes operand = .ok code) :
    ∀ item ∈ items operand, ∃ part, Denotes item part := by
  obtain ⟨parts, hparts, -⟩ := bytes_eq_ok_iff.mp h
  have hboth := hparts.imp fun item part hpart =>
    (⟨⟨part, hpart⟩, hpart⟩ : (∃ part, Denotes item part) ∧ Denotes item part)
  exact (List.forall₂_and_left _ _ |>.mp hboth).1

/-- What comes of the operand of a data directive. It is accepted with the bytes of its items if each
of them is written as it is meant to be or has its own quote inside once more; otherwise the first
item that is neither is the error. -/
theorem bytes_outcome (operand : List Char) :
    (∀ code, bytes operand = .ok code ↔
      ∃ parts, List.Forall₂ Denotes (items operand) parts ∧ code = parts.flatten) ∧
    ((∃ code, bytes operand = .ok code) ↔
      ∀ item ∈ items operand, IsProper item ∨ RepeatsQuote item) ∧
    ∀ cause, bytes operand = .error cause ↔
      ∃ before item behind, items operand = before ++ item :: behind ∧
        (∀ other ∈ before, IsProper other ∨ RepeatsQuote other) ∧
        ¬ IsProper item ∧ ¬ RepeatsQuote item ∧ cause = .invalidData (String.ofList item) := by
  refine ⟨fun code => bytes_eq_ok_iff, ?_, fun cause => ?_⟩
  · simp only [← exists_denotes_iff]
    constructor
    · rintro ⟨code, hcode⟩
      exact denotes_of_bytes hcode
    · intro hitems
      cases hbytes : bytes operand with
      | ok code => exact ⟨code, rfl⟩
      | error cause =>
        obtain ⟨before, item, behind, hitem, -, hnone, -⟩ := bytes_eq_error_iff.mp hbytes
        obtain ⟨part, hpart⟩ := hitems item (by simp [hitem])
        exact absurd hpart (hnone part)
  · simp only [bytes_eq_error_iff, ← not_exists, exists_denotes_iff, not_or, and_assoc]

/-- A comma left out goes unnoticed: two texts in quotes are taken for one, with the quotes between
them. -/
theorem bytes_missing_comma :
    let operand := ['\x22', 'A', '\x22', ' ', '\x22', 'B', '\x22']
    bytes operand = .ok [0x41, 0x22, 0x20, 0x22, 0x42] ∧
      items operand = [operand] ∧ ¬ IsProper operand := by
  refine ⟨by decide +kernel, by decide +kernel, ?_⟩
  rintro ⟨item, hitem⟩
  cases item with
  | number numeral value hvalue =>
    have hmark : '\x22' ∈ numeral := by
      obtain rfl : numeral = _ := hitem
      decide
    nomatch isQuote_of_value? hvalue _ hmark
  | quoted quote text hquote htext =>
    obtain ⟨rfl, hrest⟩ := List.cons.inj hitem
    have hinner : text = ['A', '\x22', ' ', '\x22', 'B'] := by
      simpa using congrArg List.dropLast hrest
    subst hinner
    exact htext (by decide)

/-! ### Items between commas -/

section
variable {separator : Char} {lead trail text before behind : List Char}

theorem items_of_none (h : splitUnquoted? ',' text = none) : items text = [trim text] := by
  rw [items, unquotedParts_of_none h, List.map_singleton]

theorem items_of_some (h : splitUnquoted? ',' text = some (before, behind)) :
    items text = trim before :: items behind := by
  rw [items, unquotedParts_of_some h, List.map_cons, items]

/-- Whether a character divides a line with data: it separates items, starts a comment, or ends a
label. -/
def divides (c : Char) : Bool := c == ',' || c == ';' || c == ':'

theorem eq_of_divides (h : divides separator = true) :
    separator = ',' ∨ separator = ';' ∨ separator = ':' := by
  simpa [divides, or_assoc] using h

theorem isQuote_of_isBlank {c : Char} (h : isBlank c = true) : isQuote c = false := by
  rw [Bool.eq_false_iff]
  intro hquote
  simp only [isQuote, Bool.or_eq_true, beq_iff_eq] at hquote
  rcases hquote with rfl | rfl <;> cases h

theorem isWhole_of_blank (hseparator : divides separator = true)
    (h : ∀ c ∈ text, isBlank c = true) : IsWhole separator text := by
  refine .plain fun c hc => ⟨?_, isQuote_of_isBlank (h c hc)⟩
  rintro rfl
  have hblank := h c hc
  rcases eq_of_divides hseparator with rfl | rfl | rfl <;> cases hblank

theorem items_append_blank (h : ∀ c ∈ trail, isBlank c = true) (text : List Char) :
    items (text ++ trail) = items text := by
  have hcomma : ',' ∉ trail := fun hc => nomatch h _ hc
  induction text using cut_induction ',' with
  | uncut text hcut =>
    -- The blanks end up behind the last part, where they are trimmed off.
    have hlonger : splitUnquoted? ',' (text ++ trail) = none := by
      rw [splitUnquoted?, splitUnquotedFrom?_append_of_none hcut,
        splitUnquotedFrom?_eq_none hcomma]
    have htrim : trim ([] ++ text ++ trail) = trim text := trim_padded (by simp) h text
    rw [items_of_none hlonger, items_of_none hcut, ← htrim, List.nil_append]
  | cut text before behind hcut ih =>
    have hlonger : splitUnquoted? ',' (text ++ trail) = some (before, behind ++ trail) :=
      splitUnquotedFrom?_append_of_some hcut trail
    rw [items_of_some hlonger, items_of_some hcut, ih]

theorem items_padded (hlead : ∀ c ∈ lead, isBlank c = true) (htrail : ∀ c ∈ trail, isBlank c = true)
    (text : List Char) : items (lead ++ text ++ trail) = items text := by
  have hwhole : IsWhole ',' lead := isWhole_of_blank rfl hlead
  have htrim (part : List Char) : trim (lead ++ part) = trim part := by
    simpa using trim_padded hlead (by simp : ∀ c ∈ [], isBlank c = true) part
  rw [items_append_blank htrail]
  cases hcut : splitUnquoted? ',' text with
  | none =>
    have hlonger : splitUnquoted? ',' (lead ++ text) = none := by
      rw [hwhole.splitUnquoted?_append, hcut, Option.map_none]
    rw [items_of_none hlonger, items_of_none hcut, htrim]
  | some parts =>
    have hlonger : splitUnquoted? ',' (lead ++ text) = some (lead ++ parts.1, parts.2) := by
      rw [hwhole.splitUnquoted?_append, hcut, Option.map_some]
    rw [items_of_some hlonger, items_of_some hcut, htrim]

theorem items_trim (text : List Char) : items (trim text) = items text := by
  obtain ⟨first, last, htext, hfirst, hlast⟩ := exists_trim text
  rw [← items_padded hfirst hlast, ← htext]

end

namespace Item

theorem isWhole {separator : Char} (hseparator : divides separator = true) (item : Item) :
    IsWhole separator item.letters := by
  cases item with
  | number numeral value hvalue =>
    refine .plain fun c hc => ⟨?_, isQuote_of_value? hvalue c hc⟩
    rintro rfl
    have hglyph := Numeral.mem_glyphs_of_value? hvalue hc
    rcases eq_of_divides hseparator with rfl | rfl | rfl <;> revert hglyph <;> decide
  | quoted quote text hquote htext =>
    refine .quoted hquote ?_ htext
    rintro rfl
    rcases eq_of_divides hseparator with rfl | rfl | rfl <;> cases hquote

theorem trim_letters (item : Item) : trim item.letters = item.letters := by
  cases item with
  | number numeral value hvalue =>
    have hglyphs : Numeral.glyphs.all (fun c => !isBlank c) = true := by decide
    have hink : ∀ c ∈ numeral, isBlank c = false := fun c hc => by
      simpa using List.all_eq_true.mp hglyphs c (Numeral.mem_glyphs_of_value? hvalue hc)
    exact trim_of_ends (fun c hc => hink c (List.mem_of_mem_head? hc))
      fun c hc => hink c (List.mem_of_mem_getLast? hc)
  | quoted quote text hquote htext =>
    have hink : isBlank quote = false := by
      rw [Bool.eq_false_iff]
      intro hblank
      rw [isQuote_of_isBlank hblank] at hquote
      cases hquote
    refine trim_of_ends ?_ ?_
    · simpa [letters] using hink
    · rw [letters, ← List.cons_append, List.getLast?_concat]
      simpa using hink

end Item

structure Field where
  lead : List Char
  item : Item
  trail : List Char
  lead_blank : ∀ c ∈ lead, isBlank c = true
  trail_blank : ∀ c ∈ trail, isBlank c = true

namespace Field

def letters (field : Field) : List Char := field.lead ++ field.item.letters ++ field.trail

theorem isWhole {separator : Char} (hseparator : divides separator = true) (field : Field) :
    IsWhole separator field.letters :=
  ((isWhole_of_blank hseparator field.lead_blank).append (field.item.isWhole hseparator)).append
    (isWhole_of_blank hseparator field.trail_blank)

theorem trim_letters (field : Field) : trim field.letters = field.item.letters := by
  rw [letters, trim_padded field.lead_blank field.trail_blank, field.item.trim_letters]

end Field

def fieldLetters (fields : List Field) : List Char := [','].intercalate (fields.map Field.letters)

theorem items_fieldLetters {fields : List Field} (h : fields ≠ []) :
    items (fieldLetters fields) = fields.map fun field => field.item.letters := by
  have hwhole : ∀ part ∈ fields.map Field.letters, IsWhole ',' part := by
    intro part hpart
    obtain ⟨field, -, rfl⟩ := List.mem_map.mp hpart
    exact field.isWhole rfl
  rw [items, fieldLetters, unquotedParts_intercalate (by simpa using h) hwhole, List.map_map]
  exact List.map_congr_left fun field _ => field.trim_letters

theorem bytes_of_items {operand : List Char} {written : List Item}
    (h : items operand = written.map Item.letters) :
    bytes operand = .ok (written.flatMap Item.bytes) := by
  refine bytes_eq_ok_iff.mpr ⟨written.map Item.bytes, ?_, List.flatMap_def⟩
  rw [h, List.forall₂_map_left_iff, List.forall₂_map_right_iff, List.forall₂_same]
  exact fun item _ => item.denotes

end Nmos6502.Assembly.Data
