set_option autoImplicit false

namespace Nmos6502.Text

def splitFirst? (p : Char → Bool) (text : List Char) : Option (List Char × List Char) :=
  match text.dropWhile fun c => !p c with
  | [] => none
  | _ :: rest => some (text.takeWhile fun c => !p c, rest)

theorem splitFirst?_cons (p : Char → Bool) (c : Char) (text : List Char) :
    splitFirst? p (c :: text) =
      if p c then some ([], text)
      else (splitFirst? p text).map fun parts => (c :: parts.1, parts.2) := by
  cases hc : p c
  · cases hrest : text.dropWhile fun c => !p c <;>
      simp [splitFirst?, hc, hrest]
  · simp [splitFirst?, hc]

theorem eq_of_splitFirst? {p : Char → Bool} {text before rest : List Char}
    (h : splitFirst? p text = some (before, rest)) :
    ∃ c, p c = true ∧ (∀ d ∈ before, p d = false) ∧ text = before ++ c :: rest := by
  induction text generalizing before with
  | nil => simp [splitFirst?] at h
  | cons c cs ih =>
    rw [splitFirst?_cons] at h
    split at h
    · rename_i hc
      simp only [Option.some.injEq, Prod.mk.injEq] at h
      exact ⟨c, hc, by simp [← h.1], by simp [← h.1, h.2]⟩
    · rename_i hc
      obtain ⟨⟨before', rest'⟩, hsplit, heq⟩ := Option.map_eq_some_iff.mp h
      simp only [Prod.mk.injEq] at heq
      obtain ⟨rfl, rfl⟩ := heq
      obtain ⟨d, hd, hbefore, rfl⟩ := ih hsplit
      refine ⟨d, hd, ?_, rfl⟩
      simpa [hc] using hbefore

theorem splitFirst?_length_lt {p : Char → Bool} {text before rest : List Char}
    (h : splitFirst? p text = some (before, rest)) : rest.length < text.length := by
  obtain ⟨c, _, _, rfl⟩ := eq_of_splitFirst? h
  simp
  omega

def isQuote (c : Char) : Bool := c == '\x27' || c == '\x22'

/-- The quote that is open after a character: a quote is closed by itself only. -/
def quoteAfter : Option Char → Char → Option Char
  | none, c => if isQuote c then some c else none
  | some quote, c => if c == quote then none else some quote

/-- The text before and after the first `separator` outside quotes, where `quote` is the quote that
is open at the start. -/
def splitUnquotedFrom? (separator : Char) (quote : Option Char) (before : List Char) :
    List Char → Option (List Char × List Char)
  | [] => none
  | c :: rest =>
    if quote.isNone && c == separator then some (before.reverse, rest)
    else splitUnquotedFrom? separator (quoteAfter quote c) (c :: before) rest

def splitUnquoted? (separator : Char) (text : List Char) : Option (List Char × List Char) :=
  splitUnquotedFrom? separator none [] text

theorem eq_of_splitUnquotedFrom? {separator : Char} {quote : Option Char}
    {seen text before rest : List Char}
    (h : splitUnquotedFrom? separator quote seen text = some (before, rest)) :
    seen.reverse ++ text = before ++ separator :: rest := by
  induction text generalizing quote seen with
  | nil => simp [splitUnquotedFrom?] at h
  | cons c cs ih =>
    simp only [splitUnquotedFrom?] at h
    split at h
    · rename_i hc
      simp only [Bool.and_eq_true, beq_iff_eq] at hc
      simp only [Option.some.injEq, Prod.mk.injEq] at h
      rw [← h.1, ← h.2, hc.2]
    · simpa using ih h

theorem eq_of_splitUnquoted? {separator : Char} {text before rest : List Char}
    (h : splitUnquoted? separator text = some (before, rest)) :
    text = before ++ separator :: rest := by
  simpa using eq_of_splitUnquotedFrom? h

theorem splitUnquoted?_length_lt {separator : Char} {text before rest : List Char}
    (h : splitUnquoted? separator text = some (before, rest)) : rest.length < text.length := by
  rw [eq_of_splitUnquoted? h]
  simp
  omega

def unquotedPartsOnto (separator : Char) (done : Array (List Char)) (text : List Char) :
    Array (List Char) :=
  match _h : splitUnquoted? separator text with
  | none => done.push text
  | some (before, rest) => unquotedPartsOnto separator (done.push before) rest
termination_by text.length
decreasing_by exact splitUnquoted?_length_lt _h

def unquotedParts (separator : Char) (text : List Char) : List (List Char) :=
  (unquotedPartsOnto separator #[] text).toList

def splitAroundFrom? (pattern before : List Char) : List Char → Option (List Char × List Char)
  | [] => if pattern.isEmpty then some (before.reverse, []) else none
  | c :: rest =>
    if pattern.isPrefixOf (c :: rest) then
      some (before.reverse, (c :: rest).drop pattern.length)
    else splitAroundFrom? pattern (c :: before) rest

def splitAround? (pattern text : List Char) : Option (List Char × List Char) :=
  splitAroundFrom? pattern [] text

theorem eq_of_splitAroundFrom? {pattern seen text before rest : List Char}
    (h : splitAroundFrom? pattern seen text = some (before, rest)) :
    seen.reverse ++ text = before ++ pattern ++ rest := by
  induction text generalizing seen with
  | nil =>
    simp only [splitAroundFrom?] at h
    split at h
    · rename_i hp
      simp only [Option.some.injEq, Prod.mk.injEq] at h
      rw [← h.1, ← h.2, List.isEmpty_iff.mp hp]
      simp
    · simp at h
  | cons c cs ih =>
    simp only [splitAroundFrom?] at h
    split at h
    · rename_i hp
      simp only [Option.some.injEq, Prod.mk.injEq] at h
      obtain ⟨tail, htail⟩ := List.isPrefixOf_iff_prefix.mp hp
      rw [← h.1, ← h.2, ← htail]
      simp
    · simpa using ih h

theorem eq_of_splitAround? {pattern text before rest : List Char}
    (h : splitAround? pattern text = some (before, rest)) : text = before ++ pattern ++ rest := by
  simpa using eq_of_splitAroundFrom? h

def dropEnding? (ending text : List Char) : Option (List Char) :=
  if ending.isSuffixOf text then some (text.take (text.length - ending.length)) else none

def dropReturn (line : List Char) : List Char := (dropEnding? ['\r'] line).getD line

def linesOnto (done : Array (List Char)) (text : List Char) : Array (List Char) :=
  match _h : splitFirst? (· == '\n') text with
  | some (line, rest) => linesOnto (done.push (dropReturn line)) rest
  | none => if text.isEmpty then done else done.push text
termination_by text.length
decreasing_by exact splitFirst?_length_lt _h

/-- The lines of a text. A line ends at a line feed, and a carriage return just before the line feed
belongs to the line end; nothing after the last line end is no line. -/
def lines (text : List Char) : List (List Char) := (linesOnto #[] text).toList

end Nmos6502.Text
