import Nmos6502.Proofs.Text.Cutting

set_option autoImplicit false

namespace Nmos6502.Text

/-- The quote that is open at the end of a text. -/
def openQuote (text : List Char) : Option Char := text.foldl quoteAfter none

variable {separator : Char} {quote : Option Char} {seen text before behind : List Char}

theorem splitUnquotedFrom?_append_of_some
    (h : splitUnquotedFrom? separator quote seen text = some (before, behind))
    (rest : List Char) :
    splitUnquotedFrom? separator quote seen (text ++ rest) = some (before, behind ++ rest) := by
  induction text generalizing quote seen with
  | nil => cases h
  | cons c cs ih =>
    rw [splitUnquotedFrom?] at h
    rw [List.cons_append, splitUnquotedFrom?]
    split
    · rename_i hcut
      rw [if_pos hcut] at h
      cases h
      rfl
    · rename_i hcut
      rw [if_neg hcut] at h
      exact ih h

theorem splitUnquotedFrom?_append_of_none
    (h : splitUnquotedFrom? separator quote seen text = none) (rest : List Char) :
    splitUnquotedFrom? separator quote seen (text ++ rest) =
      splitUnquotedFrom? separator (text.foldl quoteAfter quote) (text.reverse ++ seen) rest := by
  induction text generalizing quote seen with
  | nil => rfl
  | cons c cs ih =>
    rw [splitUnquotedFrom?] at h
    rw [List.cons_append, splitUnquotedFrom?]
    split
    · rename_i hcut
      rw [if_pos hcut] at h
      cases h
    · rename_i hcut
      rw [if_neg hcut] at h
      rw [ih h, List.reverse_cons, List.append_assoc]
      rfl

theorem foldl_quoteAfter_of_open {mark : Char} (h : mark ∉ text) :
    text.foldl quoteAfter (some mark) = some mark := by
  induction text with
  | nil => rfl
  | cons c cs ih =>
    obtain ⟨hc, hcs⟩ : mark ≠ c ∧ mark ∉ cs := by simpa using h
    rw [List.foldl_cons, quoteAfter, if_neg (by simpa using Ne.symm hc), ih hcs]

theorem splitUnquotedFrom?_of_open {mark : Char} (h : mark ∉ text) :
    splitUnquotedFrom? separator (some mark) seen text = none := by
  induction text generalizing seen with
  | nil => rfl
  | cons c cs ih =>
    obtain ⟨hc, hcs⟩ : mark ≠ c ∧ mark ∉ cs := by simpa using h
    have hother : ¬ (c == mark) = true := by simpa using Ne.symm hc
    rw [splitUnquotedFrom?, if_neg (by simp), quoteAfter, if_neg hother, ih hcs]

theorem splitUnquoted?_cons_self (separator : Char) (text : List Char) :
    splitUnquoted? separator (separator :: text) = some ([], text) := by
  simp [splitUnquoted?, splitUnquotedFrom?]

/-- Whether a text leaves no quote open and has no separator outside its quotes. -/
structure IsWhole (separator : Char) (text : List Char) : Prop where
  uncut : splitUnquoted? separator text = none
  closed : openQuote text = none

namespace IsWhole

theorem splitUnquoted?_append (h : IsWhole separator text) (rest : List Char) :
    splitUnquoted? separator (text ++ rest) =
      (splitUnquoted? separator rest).map fun parts => (text ++ parts.1, parts.2) := by
  have hquote : text.foldl quoteAfter none = none := h.closed
  rw [splitUnquoted?, splitUnquotedFrom?_append_of_none h.uncut, hquote, splitUnquotedFrom?_seen,
    splitUnquoted?]
  simp

theorem append {other : List Char} (h : IsWhole separator text)
    (hother : IsWhole separator other) : IsWhole separator (text ++ other) where
  uncut := by rw [h.splitUnquoted?_append, hother.uncut, Option.map_none]
  closed := by
    have hquote : text.foldl quoteAfter none = none := h.closed
    rw [openQuote, List.foldl_append, hquote]
    exact hother.closed

theorem plain (h : ∀ c ∈ text, c ≠ separator ∧ isQuote c = false) : IsWhole separator text where
  uncut := splitUnquoted?_eq_none fun hmem => (h _ hmem).1 rfl
  closed := by
    rw [openQuote]
    induction text with
    | nil => rfl
    | cons c cs ih =>
      obtain ⟨hc, hcs⟩ := List.forall_mem_cons.mp h
      rw [List.foldl_cons, quoteAfter, hc.2]
      exact ih hcs

theorem quoted {mark : Char} (hmark : isQuote mark = true) (hseparator : mark ≠ separator)
    (htext : mark ∉ text) : IsWhole separator (mark :: (text ++ [mark])) where
  uncut := by
    rw [splitUnquoted?, splitUnquotedFrom?, if_neg (by simp [hseparator]), quoteAfter,
      if_pos hmark, splitUnquotedFrom?_append_of_none (splitUnquotedFrom?_of_open htext),
      foldl_quoteAfter_of_open htext]
    rfl
  closed := by
    have hopen : text.foldl quoteAfter (some mark) = some mark := foldl_quoteAfter_of_open htext
    simp [openQuote, quoteAfter, hmark, hopen]

theorem intercalate {joint : List Char} (hjoint : IsWhole separator joint)
    {parts : List (List Char)} (hparts : ∀ part ∈ parts, IsWhole separator part) :
    IsWhole separator (joint.intercalate parts) := by
  induction parts with
  | nil => exact ⟨rfl, rfl⟩
  | cons part parts ih =>
    obtain ⟨hpart, hrest⟩ := List.forall_mem_cons.mp hparts
    cases parts with
    | nil => simpa using hpart
    | cons next parts =>
      rw [List.intercalate_cons_cons]
      exact (hpart.append hjoint).append (ih hrest)

theorem exists_quote (h : IsWhole separator (before ++ separator :: behind))
    (hfirst : separator ∉ before) : ∃ c ∈ before, isQuote c = true := by
  refine Classical.byContradiction fun hplain => ?_
  have hbefore : ∀ c ∈ before, c ≠ separator ∧ isQuote c = false := fun c hc =>
    ⟨fun he => hfirst (he ▸ hc), by simpa using fun hquote => hplain ⟨c, hc, hquote⟩⟩
  have hcut := h.uncut
  rw [(plain hbefore).splitUnquoted?_append, splitUnquoted?_cons_self] at hcut
  cases hcut

end IsWhole

/-- Every text is not cut, or is cut first and then the text behind it. -/
theorem cut_induction (separator : Char) {motive : List Char → Prop}
    (uncut : ∀ text, splitUnquoted? separator text = none → motive text)
    (cut : ∀ text before rest, splitUnquoted? separator text = some (before, rest) →
      motive rest → motive text)
    (text : List Char) : motive text := by
  cases hcut : splitUnquoted? separator text with
  | none => exact uncut text hcut
  | some parts =>
    have hshorter : parts.2.length < text.length := splitUnquoted?_length_lt hcut
    exact cut text parts.1 parts.2 hcut (cut_induction separator uncut cut parts.2)
termination_by text.length

theorem unquotedPartsOnto_toList (separator : Char) (done : Array (List Char)) (text : List Char) :
    (unquotedPartsOnto separator done text).toList =
      done.toList ++ unquotedParts separator text := by
  rw [unquotedParts, unquotedPartsOnto, unquotedPartsOnto]
  split
  · simp
  · rename_i before rest hcut
    have hshorter := splitUnquoted?_length_lt hcut
    rw [unquotedPartsOnto_toList separator _ rest, unquotedPartsOnto_toList separator _ rest]
    simp
termination_by text.length

theorem unquotedParts_of_none (h : splitUnquoted? separator text = none) :
    unquotedParts separator text = [text] := by
  rw [unquotedParts, unquotedPartsOnto]
  split
  · rfl
  · simp_all

theorem unquotedParts_of_some (h : splitUnquoted? separator text = some (before, behind)) :
    unquotedParts separator text = before :: unquotedParts separator behind := by
  rw [unquotedParts, unquotedPartsOnto]
  split
  · simp_all
  · rename_i first rest hcut
    rw [h] at hcut
    obtain ⟨rfl, rfl⟩ := Prod.mk.inj (Option.some.inj hcut)
    rw [unquotedPartsOnto_toList]
    simp

theorem unquotedParts_intercalate {parts : List (List Char)} (hsome : parts ≠ [])
    (hparts : ∀ part ∈ parts, IsWhole separator part) :
    unquotedParts separator ([separator].intercalate parts) = parts := by
  induction parts with
  | nil => exact absurd rfl hsome
  | cons part parts ih =>
    obtain ⟨hpart, hrest⟩ := List.forall_mem_cons.mp hparts
    cases parts with
    | nil => simpa using unquotedParts_of_none hpart.uncut
    | cons next parts =>
      have hcut (rest : List Char) :
          splitUnquoted? separator (part ++ separator :: rest) = some (part, rest) := by
        rw [hpart.splitUnquoted?_append, splitUnquoted?_cons_self, Option.map_some, List.append_nil]
      rw [List.intercalate_cons_cons, List.append_assoc, List.singleton_append,
        unquotedParts_of_some (hcut _), ih (by simp) hrest]

end Nmos6502.Text
