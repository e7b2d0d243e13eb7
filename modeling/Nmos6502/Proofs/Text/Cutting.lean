import Nmos6502.Text.Blank
import Nmos6502.Text.Split
import Nmos6502.Text.Upper

set_option autoImplicit false

namespace Nmos6502.Text

theorem splitFirst?_eq_none {p : Char → Bool} {text : List Char} (h : ∀ c ∈ text, p c = false) :
    splitFirst? p text = none := by
  induction text with
  | nil => rfl
  | cons c cs ih =>
    rw [splitFirst?_cons, h c (by simp), ih fun d hd => h d (by simp [hd])]
    rfl

theorem eq_false_of_splitFirst?_eq_none {p : Char → Bool} {text : List Char}
    (h : splitFirst? p text = none) : ∀ c ∈ text, p c = false := by
  induction text with
  | nil => simp
  | cons c cs ih =>
    rw [splitFirst?_cons] at h
    cases hc : p c with
    | true => simp [hc] at h
    | false =>
      simp only [hc, Bool.false_eq_true, if_false, Option.map_eq_none_iff] at h
      exact List.forall_mem_cons.mpr ⟨hc, ih h⟩

theorem splitFirst?_append {p : Char → Bool} {before : List Char} {c : Char} {rest : List Char}
    (hbefore : ∀ d ∈ before, p d = false) (hc : p c = true) :
    splitFirst? p (before ++ c :: rest) = some (before, rest) := by
  induction before with
  | nil => simp [splitFirst?_cons, hc]
  | cons d ds ih =>
    rw [List.cons_append, splitFirst?_cons, hbefore d (by simp),
      ih fun e he => hbefore e (by simp [he])]
    rfl

/-- Every text is without a line feed, or is such a text, a line feed and another text. -/
theorem feed_induction {motive : List Char → Prop}
    (unbroken : ∀ line, '\n' ∉ line → motive line)
    (feed : ∀ line rest, '\n' ∉ line → motive rest → motive (line ++ '\n' :: rest))
    (text : List Char) : motive text := by
  have notMem {line : List Char} (h : ∀ c ∈ line, (c == '\n') = false) : '\n' ∉ line := fun hc => by
    simpa using h _ hc
  cases hcut : splitFirst? (· == '\n') text with
  | none => exact unbroken text (notMem (eq_false_of_splitFirst?_eq_none hcut))
  | some parts =>
    have hshorter := splitFirst?_length_lt hcut
    obtain ⟨c, hc, hfirst, rfl⟩ := eq_of_splitFirst? hcut
    obtain rfl : c = '\n' := by simpa using hc
    exact feed parts.1 parts.2 (notMem hfirst) (feed_induction unbroken feed parts.2)
termination_by text.length

theorem feed_notMem_of_mem_splitOn {text line : List Char} (h : line ∈ text.splitOn '\n') :
    '\n' ∉ line := by
  induction text using feed_induction with
  | unbroken text htext =>
    rw [List.splitOn_eq_singleton htext, List.mem_singleton] at h
    rwa [h]
  | feed first rest hfirst ih =>
    rw [List.splitOn_append_cons_self, List.splitOn_eq_singleton hfirst, List.mem_append,
      List.mem_singleton] at h
    rcases h with rfl | h
    · exact hfirst
    · exact ih h

theorem splitUnquotedFrom?_eq_none {separator : Char} {quote : Option Char}
    {seen text : List Char} (h : separator ∉ text) :
    splitUnquotedFrom? separator quote seen text = none := by
  induction text generalizing quote seen with
  | nil => rfl
  | cons c cs ih =>
    have hc : c ≠ separator := fun he => h (by simp [he])
    simp [splitUnquotedFrom?, hc, ih fun hmem => h (by simp [hmem])]

theorem splitUnquoted?_eq_none {separator : Char} {text : List Char} (h : separator ∉ text) :
    splitUnquoted? separator text = none :=
  splitUnquotedFrom?_eq_none h

theorem splitUnquotedFrom?_seen (separator : Char) (quote : Option Char) (seen text : List Char) :
    splitUnquotedFrom? separator quote seen text =
      (splitUnquotedFrom? separator quote [] text).map fun parts =>
        (seen.reverse ++ parts.1, parts.2) := by
  induction text generalizing quote seen with
  | nil => rfl
  | cons c cs ih =>
    simp only [splitUnquotedFrom?]
    split
    · simp
    · rw [ih, ih _ [c]]
      simp [Function.comp_def]

theorem splitUnquoted?_append {separator : Char} {before : List Char}
    (h : ∀ c ∈ before, c ≠ separator ∧ isQuote c = false) (text : List Char) :
    splitUnquoted? separator (before ++ text) =
      (splitUnquoted? separator text).map fun parts => (before ++ parts.1, parts.2) := by
  induction before with
  | nil => simp
  | cons c cs ih =>
    obtain ⟨hc, hquote⟩ := h c List.mem_cons_self
    have hcs := ih fun d hd => h d (List.mem_cons_of_mem c hd)
    rw [splitUnquoted?] at hcs ⊢
    simp only [List.cons_append, splitUnquotedFrom?, quoteAfter, hc, hquote, beq_iff_eq,
      Option.isNone_none, Bool.true_and, if_false, Bool.false_eq_true]
    rw [splitUnquotedFrom?_seen, hcs]
    simp [Function.comp_def]

theorem dropEnding?_append (text ending : List Char) :
    dropEnding? ending (text ++ ending) = some text := by
  simp [dropEnding?]

theorem eq_of_dropEnding? {ending text front : List Char}
    (h : dropEnding? ending text = some front) : text = front ++ ending := by
  rw [dropEnding?] at h
  split at h
  · rename_i hends
    obtain ⟨rest, rfl⟩ := List.isSuffixOf_iff_suffix.mp hends
    cases h
    simp
  · cases h

theorem dropEnding?_eq_none {ending text : List Char} (h : ¬ ending <:+ text) :
    dropEnding? ending text = none := by
  rw [dropEnding?, if_neg]
  simpa using h

theorem trim_of_ends {text : List Char} (hhead : ∀ c ∈ text.head?, isBlank c = false)
    (hlast : ∀ c ∈ text.getLast?, isBlank c = false) : trim text = text := by
  have keep : ∀ s : List Char, (∀ c ∈ s.head?, isBlank c = false) → s.dropWhile isBlank = s := by
    intro s hs
    cases s with
    | nil => rfl
    | cons c cs => simp [hs c (by simp)]
  rw [trim, trimStart, keep text hhead, trimEnd, keep text.reverse (by simpa using hlast),
    List.reverse_reverse]

theorem removeBlanks_of_none {text : List Char} (h : ∀ c ∈ text, isBlank c = false) :
    removeBlanks text = text := by
  rw [removeBlanks, List.filter_eq_self]
  intro c hc
  simp [h c hc]

theorem upper_of_upperChar {text : List Char} (h : ∀ c ∈ text, upperChar c = [c]) :
    upper text = text := by
  induction text with
  | nil => rfl
  | cons c cs ih =>
    have hcs : upper cs = cs := ih fun d hd => h d (by simp [hd])
    unfold upper at hcs ⊢
    simp [h c (by simp), hcs]

theorem linesOnto_toList (done : Array (List Char)) (text : List Char) :
    (linesOnto done text).toList = done.toList ++ lines text := by
  rw [lines, linesOnto, linesOnto]
  split
  · rename_i line rest hsplit
    have hshorter := splitFirst?_length_lt hsplit
    rw [linesOnto_toList _ rest, linesOnto_toList _ rest]
    simp
  · split <;> simp
termination_by text.length

theorem lines_nil : lines [] = [] := by
  simp [lines, linesOnto, splitFirst?]

theorem lines_of_unbroken {line : List Char} (hbreak : '\n' ∉ line) (hsome : line ≠ []) :
    lines line = [line] := by
  have hsplit : splitFirst? (· == '\n') line = none :=
    splitFirst?_eq_none fun c hc => by simpa using fun he : c = '\n' => hbreak (he ▸ hc)
  rw [lines, linesOnto]
  split
  · simp_all
  · simp [hsome]

theorem lines_append_feed {line : List Char} (hbreak : '\n' ∉ line) (rest : List Char) :
    lines (line ++ '\n' :: rest) = dropReturn line :: lines rest := by
  have hsplit : splitFirst? (· == '\n') (line ++ '\n' :: rest) = some (line, rest) :=
    splitFirst?_append (fun c hc => by simpa using fun he : c = '\n' => hbreak (he ▸ hc))
      (by simp)
  rw [lines, linesOnto]
  split
  · rename_i first others hfirst
    rw [hsplit] at hfirst
    obtain ⟨rfl, rfl⟩ := Prod.mk.inj (Option.some.inj hfirst)
    rw [linesOnto_toList]
    simp
  · simp_all

theorem lines_append_break {line rest : List Char} (hbreak : '\n' ∉ line)
    (hreturn : line.getLast? ≠ some '\r') : lines (line ++ '\n' :: rest) = line :: lines rest := by
  have hkeep : dropReturn line = line := by
    rw [dropReturn, dropEnding?_eq_none]
    · rfl
    · rintro ⟨before, rfl⟩
      simp at hreturn
  rw [lines_append_feed hbreak, hkeep]

/-- Lines joined by line feeds are read back, if none of them is empty, broken or ends in a carriage
return. -/
theorem lines_intercalate {ls : List (List Char)} (hsome : ∀ l ∈ ls, l ≠ [])
    (hbreak : ∀ l ∈ ls, '\n' ∉ l) (hreturn : ∀ l ∈ ls, l.getLast? ≠ some '\r') :
    lines (['\n'].intercalate ls) = ls := by
  induction ls with
  | nil => exact lines_nil
  | cons l ls ih =>
    cases ls with
    | nil => simpa using lines_of_unbroken (hbreak l (by simp)) (hsome l (by simp))
    | cons next ls =>
      have hrest := ih (fun m hm => hsome m (by simp [hm])) (fun m hm => hbreak m (by simp [hm]))
        fun m hm => hreturn m (by simp [hm])
      rw [List.intercalate_cons_cons, List.append_assoc, List.singleton_append,
        lines_append_break (hbreak l (by simp)) (hreturn l (by simp)), hrest]

end Nmos6502.Text
