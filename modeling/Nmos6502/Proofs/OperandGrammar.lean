import Nmos6502.Proofs.OperandReading

set_option autoImplicit false

namespace Nmos6502.Operand

theorem splitIndex?_indexLetters {base : List Char} (h : ',' ∉ base)
    (index : Option IndexRegister) :
    splitIndex? (base ++ indexLetters index) = some (base, index) := by
  have hbase : ∀ c ∈ base, (c == ',') = false := fun c hc => by
    simpa using fun he : c = ',' => h (he ▸ hc)
  have hcut (rest : List Char) :
      Text.splitFirst? (· == ',') (base ++ ',' :: rest) = some (base, rest) :=
    Text.splitFirst?_append hbase (by simp)
  rcases index with - | (- | -)
  · simp [indexLetters, splitIndex?, Text.splitFirst?_eq_none hbase]
  · simp [indexLetters, splitIndex?, hcut]
  · simp [indexLetters, splitIndex?, hcut]

theorem splitSelector_sign (selector : ByteSelector) (rest : List Char) :
    splitSelector (selectorSign selector :: rest) = (some selector, rest) := by
  cases selector <;> rfl

theorem ofBare?_eq_none {text : List Char} (hsome : text ≠ []) (hletter : text ≠ ['A']) :
    ofBare? text = none := by
  unfold ofBare?
  split
  · exact absurd rfl hsome
  · exact absurd rfl hletter
  · rfl

theorem target?_of_isName {name : List Char} (h : Label.isName name = true) :
    target? name = some (.label (String.ofList name)) := by
  simp [target?, h]

theorem target?_of_value? {numeral : List Char} {value : UInt16}
    (h : Numeral.value? numeral = some value) : target? numeral = some (.number value) := by
  rw [target?, if_neg, h, Option.map_some]
  intro hname
  rw [Label.value?_of_isName hname] at h
  cases h

theorem ne_letter_of_value? {numeral : List Char} {value : UInt16}
    (h : Numeral.value? numeral = some value) : numeral ≠ ['A'] := by
  rintro rfl
  cases h

theorem splitSelector_of_value? {numeral : List Char} {value : UInt16}
    (h : Numeral.value? numeral = some value) : splitSelector numeral = (none, numeral) := by
  unfold splitSelector
  split
  · cases h
  · cases h
  · rfl

theorem classifyBranch_target {text : List Char} {target : Target}
    (htarget : target? text = some target) (hletter : text ≠ ['A']) :
    classifyBranch text = some (.branch target) := by
  have hsome : text ≠ [] := by
    rintro rfl
    cases htarget
  rw [classifyBranch, ofBare?_eq_none hsome hletter, ofBranch?, htarget]
  rfl

theorem classify_plain {text : List Char} (hbare : ofBare? text = none)
    (hsign : text.head? ≠ some '#') :
    classify text = .ok ((ofZeroPage? text).or ((ofAbsolute? text).or (ofIndirect? text))) := by
  have himmediate : ofImmediate? text = .ok none := by
    unfold ofImmediate?
    split
    · exact absurd rfl hsign
    · rfl
  have hbranch : (ofAbsolute? text).or ((ofIndirect? text).or (ofBranch? text)) =
      (ofAbsolute? text).or (ofIndirect? text) := by
    cases habsolute : ofAbsolute? text with
    | some read => rfl
    | none => rw [ofBranch?_of_ofAbsolute? habsolute, Option.or_none]
  simp [classify, hbare, himmediate, hbranch, bind, Except.bind, pure, Except.pure]

/-- A label or a number is read as an address in page zero if it is a number below 256, and as a full
address otherwise. -/
theorem classify_target {base : List Char} {target : Target} {index : Option IndexRegister}
    (htarget : target? base = some target) (hletter : index = none → base ≠ ['A']) :
    classify (base ++ indexLetters index) =
      .ok (some (((Numeral.byteValue? base).map fun address => zeroPage address index).getD
        (absolute target index))) := by
  have hindex := splitIndex?_indexLetters (comma_notMem_of_target? htarget) index
  have hsome : base ≠ [] := by
    rintro rfl
    cases htarget
  have hbare : ofBare? (base ++ indexLetters index) = none := by
    refine ofBare?_eq_none (by simp [hsome]) fun hone => ?_
    have hlength := congrArg List.length hone
    have hbase := List.length_pos_of_ne_nil hsome
    rcases index with - | (- | -)
    · exact hletter rfl (by simpa [indexLetters] using hone)
    · simp [indexLetters] at hlength
    · simp [indexLetters] at hlength
  have hsign : (base ++ indexLetters index).head? ≠ some '#' := by
    rw [List.head?_append_of_ne_nil _ hsome]
    exact fun hhead => number_sign_notMem_of_target? htarget (List.mem_of_mem_head? hhead)
  rw [classify_plain hbare hsign, ofZeroPage?, ofAbsolute?, hindex]
  cases hbyte : Numeral.byteValue? base <;> simp [hbyte, htarget]

theorem classify_sign (body : List Char) :
    classify ('#' :: body) = (ofImmediateBody ('#' :: body) body).map some := by
  cases hbody : ofImmediateBody ('#' :: body) body <;>
    simp [classify, ofBare?, ofImmediate?, hbody, Except.map, bind, Except.bind, pure, Except.pure]

/-- What stands before the comma of a text in parentheses is neither a number nor a name. -/
theorem splitIndex?_paren {rest base : List Char} {index : Option IndexRegister}
    (h : splitIndex? ('(' :: rest) = some (base, index)) : '(' ∈ base := by
  have htext := eq_of_splitIndex? h
  cases base with
  | nil => rcases index with - | (- | -) <;> cases htext
  | cons c cs => exact (List.cons.inj htext).1 ▸ List.mem_cons_self

theorem classify_paren (rest : List Char) :
    classify ('(' :: rest) = .ok (ofIndirect? ('(' :: rest)) := by
  have hsplit (parts : List Char × Option IndexRegister)
      (h : splitIndex? ('(' :: rest) = some parts) : target? parts.1 = none := by
    cases htarget : target? parts.1 with
    | none => rfl
    | some target =>
      exact absurd (splitIndex?_paren h) (notMem_of_target? htarget rfl rfl (by decide))
  have habsolute : ofAbsolute? ('(' :: rest) = none :=
    Option.bind_eq_none_iff.mpr fun parts h => by simp [hsplit parts h]
  have hzero : ofZeroPage? ('(' :: rest) = none := by
    refine Option.bind_eq_none_iff.mpr fun parts h => ?_
    cases hvalue : Numeral.byteValue? parts.1 with
    | none => simp [hvalue]
    | some value =>
      have htarget := target?_of_value? (Numeral.byteValue?_eq_some_iff.mp hvalue)
      rw [hsplit parts h] at htarget
      cases htarget
  rw [classify_plain rfl (by simp), hzero, habsolute, Option.none_or, Option.none_or]

theorem dropEnding?_y_paren (text : List Char) :
    Text.dropEnding? [')', ',', 'Y'] (text ++ [')']) = none := by
  apply Text.dropEnding?_eq_none
  rintro ⟨before, h⟩
  have hlast := congrArg List.getLast? h
  simp at hlast

theorem ofIndirect?_inner {numeral : List Char} {value : UInt16}
    (hvalue : Numeral.value? numeral = some value) (index : Option IndexRegister) :
    ofIndirect? ('(' :: (numeral ++ indexLetters index ++ [')'])) =
      match index with
      | none => some (indirect value)
      | some .x => (Numeral.byteValue? numeral).map indirectX
      | some .y => none := by
  have hcomma := comma_notMem_of_target? (target?_of_value? hvalue)
  simp only [ofIndirect?, dropEnding?_y_paren, Text.dropEnding?_append, Option.bind_eq_bind,
    Option.bind_some, splitIndex?_indexLetters hcomma index]
  rcases index with - | (- | -)
  · simp [hvalue]
  · rfl
  · rfl

theorem classify_of_spells {text : List Char} {read : Operand} (h : Spells text read) :
    classify text = .ok (some read) := by
  cases h with
  | implied => rfl
  | accumulator => rfl
  | immediate hvalue =>
    simp [classify_sign, ofImmediateBody, splitSelector_of_value? hvalue, hvalue,
      Numeral.toUInt16_le_byte, Except.map]
  | half selector hvalue =>
    simp [classify_sign, ofImmediateBody, splitSelector_sign, hvalue, Except.map]
  | addressByte selector hname =>
    simp [classify_sign, ofImmediateBody, splitSelector_sign, Label.value?_of_isName hname, hname,
      Except.map]
  | zeroPage index hvalue =>
    rw [classify_target (target?_of_value? hvalue) fun _ => ne_letter_of_value? hvalue,
      Numeral.byteValue?_eq_some_iff.mpr hvalue, Option.map_some, Option.getD_some]
  | absolute index hvalue hlarge =>
    rw [classify_target (target?_of_value? hvalue) fun _ => ne_letter_of_value? hvalue]
    simp [Numeral.byteValue?, hvalue, UInt16.not_le.mpr hlarge]
  | label hname hletter =>
    rw [classify_target (target?_of_isName hname) hletter]
    simp [Numeral.byteValue?, Label.value?_of_isName hname]
  | @indirect numeral pointer hvalue =>
    have hinner := ofIndirect?_inner hvalue none
    rw [indexLetters, List.append_nil] at hinner
    rw [classify_paren, hinner]
  | indirectX hvalue =>
    rw [classify_paren]
    have hinner := ofIndirect?_inner hvalue (some .x)
    rw [Numeral.byteValue?_eq_some_iff.mpr hvalue] at hinner
    exact congrArg Except.ok hinner
  | indirectY hvalue =>
    rw [classify_paren, ofIndirect?, Text.dropEnding?_append]
    simp [Numeral.byteValue?_eq_some_iff.mpr hvalue]

theorem classify_eq_ok_some_iff {text : List Char} {read : Operand} :
    classify text = .ok (some read) ↔ Spells text read :=
  ⟨spells_of_classify, classify_of_spells⟩

/-- Whether a text is a number sign in front of a number that does not fit in a byte. -/
def TooLarge (text : List Char) : Prop :=
  ∃ (numeral : List Char) (value : UInt16),
    text = '#' :: numeral ∧ Numeral.value? numeral = some value ∧ 0xFF < value

theorem classify_of_tooLarge {text : List Char} (h : TooLarge text) :
    classify text = .error (.outOfRange (String.ofList text)) := by
  obtain ⟨numeral, value, rfl, hvalue, hlarge⟩ := h
  simp [classify_sign, ofImmediateBody, splitSelector_of_value? hvalue, hvalue,
    UInt16.not_le.mpr hlarge, Except.map]

theorem not_tooLarge {text : List Char} {found : Option Operand} (h : classify text = .ok found) :
    ¬ TooLarge text := by
  intro hlarge
  rw [classify_of_tooLarge hlarge] at h
  cases h

theorem ofImmediateBody_eq_error {whole body : List Char} {error : ImmediateError}
    (h : ofImmediateBody whole body = .error error) :
    (∃ value, Numeral.value? body = some value ∧ 0xFF < value) ∨
      Numeral.value? body = none ∧ error = .malformed (String.ofList whole) := by
  have hsigned (selector : ByteSelector) (rest : List Char) :
      Numeral.value? (selectorSign selector :: rest) = none := by
    cases hvalue : Numeral.value? (selectorSign selector :: rest) with
    | none => rfl
    | some value =>
      have hselector := splitSelector_of_value? hvalue
      rw [splitSelector_sign] at hselector
      cases hselector
  unfold ofImmediateBody at h
  cases hselector : splitSelector body with
  | mk selector rest =>
    simp only [hselector] at h
    split at h
    · cases h
    · rename_i value hvalue
      rw [eq_of_splitSelector_none hselector]
      split at h
      · cases h
      · rename_i hlarge
        exact .inl ⟨value, hvalue, UInt16.not_le.mp hlarge⟩
    · rename_i selector hvalue
      split at h
      · cases h
      · cases h
        rw [eq_of_splitSelector hselector, hsigned]
        exact .inr ⟨rfl, rfl⟩
    · rename_i hvalue
      cases h
      rw [eq_of_splitSelector_none hselector, hvalue]
      exact .inr ⟨rfl, rfl⟩

theorem classify_cases (text : List Char) :
    (∃ read, classify text = .ok (some read)) ∨ TooLarge text ∨
      (text.head? = some '#' ∧ ¬ TooLarge text ∧
        classify text = .error (.malformed (String.ofList text))) ∨
      (text.head? ≠ some '#' ∧ classify text = .ok none) := by
  by_cases hsign : text.head? = some '#'
  · obtain ⟨body, rfl⟩ : ∃ body, text = '#' :: body := List.head?_eq_some_iff.mp hsign
    rw [classify_sign]
    cases hbody : ofImmediateBody ('#' :: body) body with
    | ok read => exact .inl ⟨read, rfl⟩
    | error error =>
      rcases ofImmediateBody_eq_error hbody with ⟨value, hvalue, hlarge⟩ | ⟨hnone, rfl⟩
      · exact .inr (.inl ⟨body, value, rfl, hvalue, hlarge⟩)
      · refine .inr (.inr (.inl ⟨rfl, ?_, rfl⟩))
        rintro ⟨numeral, value, hnumeral, hvalue, -⟩
        cases hnumeral
        rw [hnone] at hvalue
        cases hvalue
  · cases hbare : ofBare? text with
    | some read => exact .inl ⟨read, classify_of_spells (spells_of_ofBare? hbare)⟩
    | none =>
      rw [classify_plain hbare hsign]
      cases (ofZeroPage? text).or ((ofAbsolute? text).or (ofIndirect? text)) with
      | some read => exact .inl ⟨read, rfl⟩
      | none => exact .inr (.inr (.inr ⟨hsign, rfl⟩))

/-- An operand is read exactly from its spellings. All other text behind a number sign is an error,
that of a number out of range if there is a number and else that of a malformed operand; all other
text without one is no operand. None is the target of a branch, and where a branch has a target there
is an address. -/
theorem classify_grammar (text : List Char) :
    (∀ read, classify text = .ok (some read) ↔ Spells text read) ∧
      (∀ error, classify text = .error error ↔
        (TooLarge text ∧ error = .outOfRange (String.ofList text)) ∨
          (text.head? = some '#' ∧ ¬ TooLarge text ∧ (∀ read, ¬ Spells text read)) ∧
            error = .malformed (String.ofList text)) ∧
      (classify text = .ok none ↔ text.head? ≠ some '#' ∧ ∀ read, ¬ Spells text read) ∧
      (∀ target, classify text ≠ .ok (some (.branch target))) ∧
      ((ofBranch? text).isSome = true →
        (ofZeroPage? text).isSome = true ∨ (ofAbsolute? text).isSome = true) := by
  have hspells (read : Operand) : Spells text read ↔ classify text = .ok (some read) :=
    classify_eq_ok_some_iff.symm
  refine ⟨fun _ => classify_eq_ok_some_iff, fun error => ?_, ?_, fun target h => ?_, fun h => ?_⟩
  · rcases classify_cases text with ⟨read, h⟩ | hlarge | ⟨hsign, hlarge, h⟩ | ⟨hsign, h⟩
    · simp [hspells, h, not_tooLarge h]
    · simp [hlarge, classify_of_tooLarge hlarge, eq_comm]
    · simp [hspells, h, hsign, hlarge, eq_comm]
    · simp [h, hsign, not_tooLarge h]
  · rcases classify_cases text with ⟨read, h⟩ | hlarge | ⟨hsign, hlarge, h⟩ | ⟨hsign, h⟩
    · simp [hspells, h]
    · obtain ⟨numeral, value, rfl, -, -⟩ := id hlarge
      simp [classify_of_tooLarge hlarge]
    · simp [h, hsign]
    · simp [hspells, h, hsign]
  · cases spells_of_classify h
  · cases habsolute : ofAbsolute? text with
    | some read => exact .inr rfl
    | none =>
      rw [ofBranch?_of_ofAbsolute? habsolute] at h
      cases h

theorem classify_grammar_padded :
    let text := "$00FF".toList
    Spells text (.zeroPage 0xFF none) ∧ (ofBranch? text).isSome = true ∧
      ((ofZeroPage? text).isSome = true ∨ (ofAbsolute? text).isSome = true) := by
  intro text
  obtain ⟨hread, -, -, -, hbranch⟩ := classify_grammar text
  have htarget : (ofBranch? text).isSome = true := by decide
  exact ⟨(hread _).mp (by decide), htarget, hbranch htarget⟩

end Nmos6502.Operand
