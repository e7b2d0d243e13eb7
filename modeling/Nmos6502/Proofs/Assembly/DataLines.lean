import Nmos6502.Proofs.Assembly.DataItems
import Nmos6502.Proofs.Assembly.LetterCase

set_option autoImplicit false

namespace Nmos6502

namespace Numeral

open Text

theorem digitValue?_toUpper (c : Char) : digitValue? c.toUpper = digitValue? c :=
  congr_toUpper (by decide) c

theorem ofDigits?_raise (radix : Nat) (digits : List Char) :
    ofDigits? radix (raise digits) = ofDigits? radix digits := by
  have happend (value : Nat) (c : Char) :
      append? radix value c.toUpper = append? radix value c := by
    rw [append?, digitValue?_toUpper, append?]
  simp only [ofDigits?, raise, List.isEmpty_map, List.foldlM_map, happend]

theorem value?_raise (text : List Char) : value? (raise text) = value? text := by
  have hdecimal (d : Char) (ds : List Char) (h : (d == '$') = false ∧ (d == '%') = false) :
      value? (d :: ds) = ofDigits? 10 (d :: ds) := by
    unfold value?
    split <;> simp_all
  cases text with
  | nil => rfl
  | cons c cs =>
    change value? (c.toUpper :: raise cs) = _
    by_cases hdollar : c = '$'
    · subst hdollar
      exact ofDigits?_raise 16 cs
    by_cases hpercent : c = '%'
    · subst hpercent
      exact ofDigits?_raise 2 cs
    have hplain : (c == '$') = false ∧ (c == '%') = false := by simp [hdollar, hpercent]
    rw [hdecimal c cs hplain, hdecimal c.toUpper (raise cs)]
    · exact ofDigits?_raise 10 (c :: cs)
    · rwa [beq_toUpper rfl, beq_toUpper rfl]

theorem value?_upper {numeral : List Char} {value : UInt16} (h : value? numeral = some value) :
    value? (upper numeral) = some value := by
  have hglyphs : glyphs.all (fun c => decide (c.toNat < 128)) = true := by decide
  have hascii : ∀ c ∈ numeral, c.toNat < 128 := fun c hc => by
    simpa using List.all_eq_true.mp hglyphs c (mem_glyphs_of_value? h hc)
  rw [upper_eq_map_toUpper hascii, ← raise, value?_raise, h]

end Numeral

namespace Assembly

open Text Outcome

namespace Data

def Item.upper : Item → Item
  | .number numeral value hvalue => .number (Text.upper numeral) value (Numeral.value?_upper hvalue)
  | .quoted quote text hquote htext =>
    .quoted quote (Text.upper text) hquote fun hmem =>
      htext (mem_of_mem_upper (isSign_of_isQuote hquote) hmem)

theorem Item.letters_upper (item : Item) : item.upper.letters = Text.upper item.letters := by
  cases item with
  | number numeral value hvalue => rfl
  | quoted quote text hquote htext =>
    have hmark : Text.upper [quote] = [quote] :=
      upper_of_upperChar (by simpa using upperChar_of_isSign (isSign_of_isQuote hquote))
    rw [letters, upper_cons, upperChar_of_isSign (isSign_of_isQuote hquote), upper_append, hmark]
    rfl

def Field.upper (field : Field) : Field := { field with item := field.item.upper }

theorem Field.letters_upper (field : Field) : field.upper.letters = Text.upper field.letters := by
  rw [letters, letters, upper_append, upper_append, upper_of_blank field.lead_blank,
    upper_of_blank field.trail_blank, ← field.item.letters_upper]
  rfl

theorem upper_fieldLetters (fields : List Field) :
    Text.upper (fieldLetters fields) = fieldLetters (fields.map Field.upper) := by
  have hcomma : Text.upper [','] = [','] := by decide
  rw [fieldLetters, upper_intercalate, hcomma, fieldLetters, List.map_map, List.map_map]
  congr 1
  exact List.map_congr_left fun field _ => field.letters_upper.symm

end Data

theorem SourceLine.splitLabel_of_isWhole {code : List Char} (h : IsWhole ':' code) :
    splitLabel code = (none, code) := by
  unfold splitLabel
  cases hcut : splitFirst? (· == ':') code with
  | none => rfl
  | some parts =>
    obtain ⟨c, hc, hfirst, rfl⟩ := eq_of_splitFirst? hcut
    obtain rfl : c = ':' := by simpa using hc
    -- The first colon is in quotes, so there is a quote in front of it, and no name has one.
    obtain ⟨mark, hmark, hquote⟩ := h.exists_quote fun hmem => by simpa using hfirst _ hmem
    have hname : labelName? parts.1 = none := by
      rw [Option.eq_none_iff_forall_ne_some]
      intro name hname
      have hplain := (isMark_eq_false_iff.mp (isMark_of_labelName? hname mark hmark)).2.2
      rw [hquote] at hplain
      cases hplain
    simp only [hname]

structure DataLine where
  lead : List Char
  word : List Char
  gap : List Char
  fields : List Data.Field
  comment : Option (List Char)
  lead_blank : ∀ c ∈ lead, isBlank c = true
  directive : upper word ∈ dataWords
  gap_ne_nil : gap ≠ []
  gap_blank : ∀ c ∈ gap, isBlank c = true
  fields_ne_nil : fields ≠ []

namespace DataLine

def code (line : DataLine) : List Char :=
  line.lead ++ (line.word ++ (line.gap ++ Data.fieldLetters line.fields))

def letters (line : DataLine) : List Char :=
  line.code ++ line.comment.elim [] (';' :: ·)

def items (line : DataLine) : List Data.Item := line.fields.map fun field => field.item.upper

def bytes (line : DataLine) : List UInt8 := line.items.flatMap Data.Item.bytes

def operand (line : DataLine) : List Char :=
  trim (upper (line.gap ++ Data.fieldLetters line.fields))

theorem isMark_of_mem_word (line : DataLine) : ∀ c ∈ line.word, isMark c = false := by
  have hwords : ∀ word ∈ dataWords, word.all (fun c => !isMark c) = true := by decide
  refine forall_of_upper (fun _ => isSign_of_isMark) fun c hc => ?_
  simpa using List.all_eq_true.mp (hwords _ line.directive) c hc

theorem isWord (line : DataLine) : Statement.IsWord (upper line.word) := by
  have hsome : ∀ word ∈ dataWords, word ≠ [] := by decide
  have hwords : ∀ word ∈ dataWords, word.all (fun c => !isBlank c && c != '*') = true := by decide
  have hword : ∀ c ∈ upper line.word, isBlank c = false ∧ c ≠ '*' := fun c hc => by
    simpa using List.all_eq_true.mp (hwords _ line.directive) c hc
  exact ⟨hsome _ line.directive, fun c hc => (hword c hc).1, fun hstar => (hword _ hstar).2 rfl⟩

theorem isWhole_code (line : DataLine) {separator : Char}
    (h : separator = ';' ∨ separator = ':') : IsWhole separator line.code := by
  have hdivides : Data.divides separator = true := by rcases h with rfl | rfl <;> rfl
  have hword : IsWhole separator line.word := .plain fun c hc => by
    have hplain := isMark_eq_false_iff.mp (line.isMark_of_mem_word c hc)
    rcases h with rfl | rfl
    · exact ⟨hplain.2.1, hplain.2.2⟩
    · exact ⟨hplain.1, hplain.2.2⟩
  have hcomma : IsWhole separator [','] := .plain fun c hc => by
    obtain rfl := List.mem_singleton.mp hc
    rcases h with rfl | rfl <;> decide
  have hfields : IsWhole separator (Data.fieldLetters line.fields) := .intercalate hcomma <| by
    intro part hpart
    obtain ⟨field, -, rfl⟩ := List.mem_map.mp hpart
    exact field.isWhole hdivides
  exact (Data.isWhole_of_blank hdivides line.lead_blank).append
    (hword.append ((Data.isWhole_of_blank hdivides line.gap_blank).append hfields))

theorem stripComment_letters (line : DataLine) :
    SourceLine.stripComment line.letters = line.code := by
  have hwhole : IsWhole ';' line.code := line.isWhole_code (.inl rfl)
  rw [letters, SourceLine.stripComment, hwhole.splitUnquoted?_append]
  cases line.comment with
  | none => simp [splitUnquoted?, splitUnquotedFrom?]
  | some comment => simp [splitUnquoted?_cons_self]

theorem ofText_letters (line : DataLine) :
    SourceLine.ofText line.letters = ⟨none, .data (upper line.word) line.operand⟩ := by
  obtain ⟨first, others, hgap⟩ := List.exists_cons_of_ne_nil line.gap_ne_nil
  have hfirst : ∀ c ∈ (line.gap ++ Data.fieldLetters line.fields).head?, isBlank c = true := by
    simpa [hgap] using line.gap_blank first (by simp [hgap])
  have hdata : Statement.ofWord (upper line.word) line.operand =
      .data (upper line.word) line.operand := by
    have hwords : ∀ word ∈ dataWords, word ∉ originWords := by decide
    rw [Statement.ofWord, if_neg (hwords _ line.directive), if_pos line.directive]
  rw [SourceLine.ofText, stripComment_letters,
    SourceLine.splitLabel_of_isWhole (line.isWhole_code (.inr rfl)), code]
  simp only [Statement.ofText_word line.lead_blank line.isWord hfirst]
  rw [← operand, hdata]

theorem items_operand (line : DataLine) :
    Data.items line.operand = line.items.map Data.Item.letters := by
  have hfields : line.fields.map Data.Field.upper ≠ [] := by simpa using line.fields_ne_nil
  have hpadded := Data.items_padded line.gap_blank (by simp : ∀ c ∈ [], isBlank c = true)
    (upper (Data.fieldLetters line.fields))
  rw [List.append_nil] at hpadded
  rw [operand, Data.items_trim, upper_append, upper_of_blank line.gap_blank, hpadded,
    Data.upper_fieldLetters, Data.items_fieldLetters hfields, List.map_map, items, List.map_map]
  rfl

theorem addLine_letters (line : DataLine) (layout : Layout) (number : Nat) :
    layout.addLine line.letters number =
      .ok (layout.put number (upper line.word) line.operand (UInt16.ofNat line.bytes.length)
        (.data line.bytes)) := by
  have hbytes : Data.bytes line.operand = .ok line.bytes := Data.bytes_of_items line.items_operand
  simp only [Layout.addLine, Layout.addSourceLine, ofText_letters, Layout.execute, Layout.putData,
    hbytes]
  rfl

/-- A line with data adds the bytes of its items, in order, to whatever is laid out already, and is
assembled to them. -/
theorem assemble_letters (line : DataLine) (h : '\n' ∉ line.letters) :
    (∀ (layout : Layout) (number : Nat), layout.addLine line.letters number =
      .ok (layout.put number (upper line.word) line.operand (UInt16.ofNat line.bytes.length)
        (.data line.bytes))) ∧
    ∀ base, (Assembler.mk base).assemble (String.ofList line.letters) = .ok line.bytes := by
  refine ⟨line.addLine_letters, fun base => ?_⟩
  have hcode (layout : Layout) : Layout.addLines layout [(line.letters, 1)] =
      .ok (layout.put 1 (upper line.word) line.operand (UInt16.ofNat line.bytes.length)
        (.data line.bytes)) := by
    rw [Layout.addLines, List.foldlM_cons, line.addLine_letters]
    rfl
  rw [assemble_ofList, List.splitOn_eq_singleton h, List.zipIdx_singleton]
  exact bind_eq_ok_iff.mpr
    ⟨_, hcode _, Program.code_eq_ok_iff.mpr ⟨[line.bytes], .cons rfl .nil, by simp⟩⟩

theorem assemble_letters_marked :
    let line : DataLine :=
      { lead := [' ']
        word := ['d', 'B']
        gap := [' ']
        fields := [
          ⟨[], .quoted '\x22' ['a', ';', 'b', ':', ',', '\x27'] rfl (by decide), [' '],
            by simp, List.all_eq_true.mp rfl⟩,
          ⟨[' '], .number ['$', '1', 'f', 'E'] 0x1FE rfl, [], List.all_eq_true.mp rfl, by simp⟩,
          ⟨[], .quoted '\x27' ['\x22'] rfl (by decide), [], by simp, by simp⟩]
        comment := some [' ', ':']
        lead_blank := List.all_eq_true.mp rfl
        directive := by decide
        gap_ne_nil := by simp
        gap_blank := List.all_eq_true.mp rfl
        fields_ne_nil := by simp }
    '\n' ∉ line.letters ∧
      String.ofList line.letters = " dB \x22a;b:,'\x22 , $1fE,'\x22'; :" ∧
      (Assembler.mk 0).assemble " dB \x22a;b:,'\x22 , $1fE,'\x22'; :" =
        .ok [0x41, 0x3B, 0x42, 0x3A, 0x2C, 0x27, 0xFE, 0x22] := by
  intro line
  have hbreak : '\n' ∉ line.letters := by decide
  have htext : String.ofList line.letters = " dB \x22a;b:,'\x22 , $1fE,'\x22'; :" := rfl
  have hcode := (line.assemble_letters hbreak).2 0
  rw [htext] at hcode
  exact ⟨hbreak, htext, hcode⟩

end DataLine
end Assembly
end Nmos6502
