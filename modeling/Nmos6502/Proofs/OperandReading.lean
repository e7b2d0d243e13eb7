import Nmos6502.Operand
import Nmos6502.Proofs.HexNumeral
import Nmos6502.Proofs.Outcome
import Nmos6502.Proofs.Text.Cutting

set_option autoImplicit false

namespace Nmos6502

namespace Numeral

theorem digitValue?_of_append? {radix value next : Nat} {c : Char}
    (h : append? radix value c = some next) : (digitValue? c).isSome = true := by
  cases hdigit : digitValue? c with
  | none => simp [append?, hdigit] at h
  | some digit => rfl

theorem digitValue?_of_foldlM {radix value last : Nat} {digits : List Char}
    (h : digits.foldlM (append? radix) value = some last) :
    ∀ c ∈ digits, (digitValue? c).isSome = true := by
  induction digits generalizing value with
  | nil => simp
  | cons c digits ih =>
    rw [List.foldlM_cons, Option.bind_eq_bind, Option.bind_eq_some_iff] at h
    obtain ⟨next, hnext, hrest⟩ := h
    exact List.forall_mem_cons.mpr ⟨digitValue?_of_append? hnext, ih hrest⟩

theorem digitValue?_of_ofDigits? {radix : Nat} {digits : List Char} {value : UInt16}
    (h : ofDigits? radix digits = some value) : ∀ c ∈ digits, (digitValue? c).isSome = true := by
  rw [ofDigits?] at h
  split at h
  · cases h
  · obtain ⟨last, hlast, -⟩ := Option.map_eq_some_iff.mp h
    exact digitValue?_of_foldlM hlast

theorem lt_of_digitValue? {c : Char} (h : (digitValue? c).isSome = true) : c.toNat < 103 := by
  unfold digitValue? at h
  split at h
  · rename_i hrange
    have hhigh : c.toNat ≤ 57 := hrange.2
    omega
  split at h
  · rename_i hrange
    have hhigh : c.toNat ≤ 70 := hrange.2
    omega
  split at h
  · rename_i hrange
    have hhigh : c.toNat ≤ 102 := hrange.2
    omega
  · cases h

theorem mem_of_value? {text : List Char} {value : UInt16} (h : value? text = some value) {c : Char}
    (hc : c ∈ text) : c = '$' ∨ c = '%' ∨ (digitValue? c).isSome = true := by
  unfold value? at h
  split at h
  · rcases List.mem_cons.mp hc with rfl | hdigit
    · exact .inl rfl
    · exact .inr (.inr (digitValue?_of_ofDigits? h c hdigit))
  · rcases List.mem_cons.mp hc with rfl | hdigit
    · exact .inr (.inl rfl)
    · exact .inr (.inr (digitValue?_of_ofDigits? h c hdigit))
  · exact .inr (.inr (digitValue?_of_ofDigits? h c hc))

def glyphs : List Char := [
  '$', '%', '0', '1', '2', '3', '4', '5', '6', '7', '8', '9', 'A', 'B', 'C', 'D', 'E', 'F', 'a',
  'b', 'c', 'd', 'e', 'f']

theorem mem_glyphs_of_value? {text : List Char} {value : UInt16} (h : value? text = some value)
    {c : Char} (hc : c ∈ text) : c ∈ glyphs := by
  have digits : ∀ code < 103, (digitValue? (Char.ofNat code)).isSome = true →
      Char.ofNat code ∈ glyphs := by
    decide
  rcases mem_of_value? h hc with rfl | rfl | hdigit
  · decide
  · decide
  · simpa using digits c.toNat (lt_of_digitValue? hdigit) (by simpa using hdigit)

end Numeral

namespace Label

theorem continuesName_of_isName {name : List Char} (h : isName name = true) :
    ∀ c ∈ name, continuesName c = true := by
  cases name with
  | nil => simp
  | cons c cs =>
    simp only [isName, Bool.and_eq_true, List.all_eq_true] at h
    exact List.forall_mem_cons.mpr ⟨continuesName_of_startsName h.1, h.2⟩

theorem ne_nil_of_isName {name : List Char} (h : isName name = true) : name ≠ [] := by
  rintro rfl
  cases h

theorem notMem_of_isName {name : List Char} (h : isName name = true) {c : Char}
    (hc : continuesName c = false) : c ∉ name := by
  intro hmem
  rw [continuesName_of_isName h c hmem] at hc
  cases hc

theorem continuesName_of_digitValue? {c : Char} (h : (Numeral.digitValue? c).isSome = true) :
    continuesName c = true := by
  have digits : ∀ code < 103, (Numeral.digitValue? (Char.ofNat code)).isSome = true →
      continuesName (Char.ofNat code) = true := by
    decide
  simpa using digits c.toNat (Numeral.lt_of_digitValue? h) (by simpa using h)

theorem ten_le_of_startsName {c : Char} (h : startsName c = true) {digit : Nat}
    (hdigit : Numeral.digitValue? c = some digit) : 10 ≤ digit := by
  have hletter : ¬ ('0' ≤ c ∧ c ≤ '9') := by
    rintro ⟨hlow, hhigh⟩
    have digits : ∀ code < 58, 48 ≤ code → startsName (Char.ofNat code) = false := by
      decide
    have hcode := digits c.toNat (Nat.lt_succ_of_le hhigh) hlow
    rw [Char.ofNat_toNat, h] at hcode
    cases hcode
  simp only [Numeral.digitValue?, hletter, if_false] at hdigit
  split at hdigit
  · rename_i hrange
    have hlow : (65 : Nat) ≤ c.toNat := hrange.1
    cases hdigit
    omega
  · split at hdigit
    · rename_i hrange
      have hlow : (97 : Nat) ≤ c.toNat := hrange.1
      cases hdigit
      omega
    · cases hdigit

/-- No name is a number: a number starts with a digit or with the sign of its radix. -/
theorem value?_of_isName {name : List Char} (h : isName name = true) :
    Numeral.value? name = none := by
  cases name with
  | nil => cases h
  | cons c cs =>
    simp only [isName, Bool.and_eq_true] at h
    have hfirst : Numeral.append? 10 0 c = none := by
      cases hdigit : Numeral.digitValue? c with
      | none => simp [Numeral.append?, hdigit]
      | some digit =>
        have hten := ten_le_of_startsName h.1 hdigit
        have hlarge : ¬ digit < 10 := by omega
        simp [Numeral.append?, hdigit, hlarge]
    unfold Numeral.value?
    split
    · rename_i heq
      obtain ⟨rfl, -⟩ := List.cons.inj heq
      exact absurd h.1 (by decide)
    · rename_i heq
      obtain ⟨rfl, -⟩ := List.cons.inj heq
      exact absurd h.1 (by decide)
    · simp [Numeral.ofDigits?, hfirst]

end Label

namespace Operand

theorem notMem_of_target? {text : List Char} {target : Target} (h : target? text = some target)
    {c : Char} (hname : Label.continuesName c = false) (hdigit : Numeral.digitValue? c = none)
    (hsign : c ≠ '$' ∧ c ≠ '%') : c ∉ text := by
  rw [target?] at h
  split at h
  · rename_i hisName
    exact Label.notMem_of_isName hisName hname
  · obtain ⟨value, hvalue, -⟩ := Option.map_eq_some_iff.mp h
    intro hc
    rcases Numeral.mem_of_value? hvalue hc with hdollar | hpercent | hsome
    · exact hsign.1 hdollar
    · exact hsign.2 hpercent
    · rw [hdigit] at hsome
      cases hsome

theorem comma_notMem_of_target? {text : List Char} {target : Target}
    (h : target? text = some target) : ',' ∉ text :=
  notMem_of_target? h rfl rfl (by decide)

theorem number_sign_notMem_of_target? {text : List Char} {target : Target}
    (h : target? text = some target) : '#' ∉ text :=
  notMem_of_target? h rfl rfl (by decide)

def indexLetters : Option IndexRegister → List Char
  | none => []
  | some .x => [',', 'X']
  | some .y => [',', 'Y']

theorem eq_of_splitIndex? {text base : List Char} {index : Option IndexRegister}
    (h : splitIndex? text = some (base, index)) : text = base ++ indexLetters index := by
  cases hsplit : Text.splitFirst? (· == ',') text with
  | none =>
    simp only [splitIndex?, hsplit, Option.some.injEq, Prod.mk.injEq] at h
    obtain ⟨rfl, rfl⟩ := h
    simp [indexLetters]
  | some parts =>
    obtain ⟨before, after⟩ := parts
    obtain ⟨c, hc, -, rfl⟩ := Text.eq_of_splitFirst? hsplit
    obtain rfl : c = ',' := by simpa using hc
    simp only [splitIndex?, hsplit] at h
    split at h <;> simp_all <;> simp [← h.2, indexLetters]

def selectorSign : ByteSelector → Char
  | .low => '<'
  | .high => '>'

theorem eq_of_splitSelector {text rest : List Char} {selector : ByteSelector}
    (h : splitSelector text = (some selector, rest)) : text = selectorSign selector :: rest := by
  unfold splitSelector at h
  split at h
  · obtain ⟨hselector, rfl⟩ := Prod.mk.inj h
    cases hselector
    rfl
  · obtain ⟨hselector, rfl⟩ := Prod.mk.inj h
    cases hselector
    rfl
  · cases (Prod.mk.inj h).1

/-- The spellings of an operand where a branch is not possible, given what numerals and names are. -/
inductive Spells : List Char → Operand → Prop
  | implied : Spells [] .implied
  | accumulator : Spells ['A'] .accumulator
  | immediate {numeral : List Char} {value : UInt8}
      (hvalue : Numeral.value? numeral = some value.toUInt16) :
      Spells ('#' :: numeral) (.immediate value)
  | half {numeral : List Char} {value : UInt16} (selector : ByteSelector)
      (hvalue : Numeral.value? numeral = some value) :
      Spells ('#' :: selectorSign selector :: numeral) (.immediate (selector.select value))
  | addressByte {name : List Char} (selector : ByteSelector) (hname : Label.isName name = true) :
      Spells ('#' :: selectorSign selector :: name) (.addressByte selector (String.ofList name))
  | zeroPage {numeral : List Char} {address : UInt8} (index : Option IndexRegister)
      (hvalue : Numeral.value? numeral = some address.toUInt16) :
      Spells (numeral ++ indexLetters index) (.zeroPage address index)
  | absolute {numeral : List Char} {address : UInt16} (index : Option IndexRegister)
      (hvalue : Numeral.value? numeral = some address) (hlarge : 0xFF < address) :
      Spells (numeral ++ indexLetters index) (.absolute (.number address) index)
  | label {name : List Char} {index : Option IndexRegister} (hname : Label.isName name = true)
      (hletter : index = none → name ≠ ['A']) :
      Spells (name ++ indexLetters index) (.absolute (.label (String.ofList name)) index)
  | indirect {numeral : List Char} {pointer : UInt16}
      (hvalue : Numeral.value? numeral = some pointer) :
      Spells ('(' :: (numeral ++ [')'])) (.indirect pointer)
  | indirectX {numeral : List Char} {pointer : UInt8}
      (hvalue : Numeral.value? numeral = some pointer.toUInt16) :
      Spells ('(' :: (numeral ++ [',', 'X'] ++ [')'])) (.indirectX pointer)
  | indirectY {numeral : List Char} {pointer : UInt8}
      (hvalue : Numeral.value? numeral = some pointer.toUInt16) :
      Spells ('(' :: (numeral ++ [')', ',', 'Y'])) (.indirectY pointer)

theorem spells_of_ofBare? {text : List Char} {read : Operand} (h : ofBare? text = some read) :
    Spells text read := by
  unfold ofBare? at h
  split at h
  · cases h
    exact .implied
  · cases h
    exact .accumulator
  · cases h

theorem eq_of_splitSelector_none {text rest : List Char} (h : splitSelector text = (none, rest)) :
    text = rest := by
  unfold splitSelector at h
  split at h <;> cases h
  rfl

theorem spells_of_ofImmediateBody {whole body : List Char} {read : Operand}
    (h : ofImmediateBody whole body = .ok read) : Spells ('#' :: body) read := by
  unfold ofImmediateBody at h
  cases hselector : splitSelector body with
  | mk selector rest =>
    simp only [hselector] at h
    split at h
    · rename_i value selector hvalue
      cases h
      rw [eq_of_splitSelector hselector]
      exact .half selector hvalue
    · rename_i value hvalue
      rw [eq_of_splitSelector_none hselector]
      split at h
      · rename_i hbyte
        cases h
        refine .immediate ?_
        rwa [Numeral.toUInt16_toUInt8 hbyte]
      · cases h
    · rename_i selector hvalue
      split at h
      · rename_i hname
        cases h
        rw [eq_of_splitSelector hselector]
        exact .addressByte selector hname
      · cases h
    · cases h

theorem spells_of_ofImmediate? {text : List Char} {read : Operand}
    (h : ofImmediate? text = .ok (some read)) : Spells text read := by
  unfold ofImmediate? at h
  split at h
  · obtain ⟨operand, hbody, hread⟩ := Outcome.map_eq_ok_iff.mp h
    cases hread
    exact spells_of_ofImmediateBody hbody
  · cases h

theorem spells_of_ofZeroPage? {text : List Char} {read : Operand}
    (h : ofZeroPage? text = some read) : Spells text read := by
  simp only [ofZeroPage?, Option.bind_eq_bind, Option.bind_eq_some_iff, Option.pure_def,
    Option.some.injEq] at h
  obtain ⟨⟨base, index⟩, hindex, address, hbase, rfl⟩ := h
  rw [eq_of_splitIndex? hindex]
  exact .zeroPage index (Numeral.byteValue?_eq_some_iff.mp hbase)

theorem spells_of_ofAbsolute? {text : List Char} {read : Operand} (hbare : ofBare? text = none)
    (hzero : ofZeroPage? text = none) (h : ofAbsolute? text = some read) : Spells text read := by
  simp only [ofAbsolute?, Option.bind_eq_bind, Option.bind_eq_some_iff, Option.pure_def,
    Option.some.injEq] at h
  obtain ⟨⟨base, index⟩, hindex, target, htarget, rfl⟩ := h
  obtain rfl := eq_of_splitIndex? hindex
  rw [target?] at htarget
  split at htarget
  · rename_i hname
    cases htarget
    refine .label hname ?_
    rintro rfl rfl
    cases hbare
  · obtain ⟨address, hvalue, rfl⟩ := Option.map_eq_some_iff.mp htarget
    refine .absolute index hvalue ?_
    by_contra hbyte
    simp [ofZeroPage?, hindex, Numeral.byteValue?, hvalue, UInt16.not_lt.mp hbyte] at hzero

theorem spells_of_ofIndirect? {text : List Char} {read : Operand}
    (h : ofIndirect? text = some read) : Spells text read := by
  unfold ofIndirect? at h
  split at h
  · split at h
    · rename_i inner hinner
      obtain ⟨pointer, hvalue, rfl⟩ := Option.map_eq_some_iff.mp h
      rw [Text.eq_of_dropEnding? hinner]
      exact .indirectY (Numeral.byteValue?_eq_some_iff.mp hvalue)
    · simp only [Option.bind_eq_bind, Option.bind_eq_some_iff] at h
      obtain ⟨inner, hinner, ⟨base, index⟩, hindex, h⟩ := h
      rw [Text.eq_of_dropEnding? hinner, eq_of_splitIndex? hindex]
      rcases index with - | (- | -)
      · obtain ⟨pointer, hvalue, rfl⟩ := Option.map_eq_some_iff.mp h
        rw [indexLetters, List.append_nil]
        exact .indirect hvalue
      · obtain ⟨pointer, hvalue, rfl⟩ := Option.map_eq_some_iff.mp h
        exact .indirectX (Numeral.byteValue?_eq_some_iff.mp hvalue)
      · cases h
  · cases h

theorem ofBranch?_of_ofAbsolute? {text : List Char} (h : ofAbsolute? text = none) :
    ofBranch? text = none := by
  cases htarget : target? text with
  | none => simp [ofBranch?, htarget]
  | some target =>
    have hsplit : Text.splitFirst? (· == ',') text = none :=
      Text.splitFirst?_eq_none fun c hc => by
        simpa using fun he : c = ',' => comma_notMem_of_target? htarget (he ▸ hc)
    simp [ofAbsolute?, splitIndex?, hsplit, htarget] at h

theorem spells_of_classify {text : List Char} {read : Operand}
    (h : classify text = .ok (some read)) : Spells text read := by
  unfold classify at h
  cases hbare : ofBare? text with
  | some operand =>
    simp only [hbare] at h
    cases h
    exact spells_of_ofBare? hbare
  | none =>
    simp only [hbare, Outcome.bind_eq_ok_iff] at h
    obtain ⟨found, himmediate, h⟩ := h
    cases found with
    | some operand =>
      cases h
      exact spells_of_ofImmediate? himmediate
    | none =>
      replace h := Except.ok.inj h
      rcases Option.or_eq_some_iff.mp h with hzero | ⟨hzero, h⟩
      · exact spells_of_ofZeroPage? hzero
      rcases Option.or_eq_some_iff.mp h with habsolute | ⟨hnone, h⟩
      · exact spells_of_ofAbsolute? hbare hzero habsolute
      rcases Option.or_eq_some_iff.mp h with hindirect | ⟨-, hbranch⟩
      · exact spells_of_ofIndirect? hindirect
      · rw [ofBranch?_of_ofAbsolute? hnone] at hbranch
        cases hbranch

/-! ### The characters of an operand -/

def admits (c : Char) : Bool :=
  Label.continuesName c || ['$', '%', '#', '<', '>', '(', ')', ','].contains c

theorem admits_of_continuesName {c : Char} (h : Label.continuesName c = true) :
    admits c = true := by
  rw [admits, h, Bool.true_or]

theorem lt_of_admits {c : Char} (h : admits c = true) : c.toNat < 128 := by
  have hupper (h : c.isUpper = true) : c.toNat ≤ 90 := (of_decide_eq_true h).2
  have hlower (h : c.isLower = true) : c.toNat ≤ 122 :=
    of_decide_eq_true (Bool.and_eq_true_iff.mp h).2
  have hdigit (h : c.isDigit = true) : c.toNat ≤ 57 :=
    of_decide_eq_true (Bool.and_eq_true_iff.mp h).2
  rcases Bool.or_eq_true_iff.mp h with h | hsign
  · rcases Bool.or_eq_true_iff.mp h with h | hline
    · rcases Bool.or_eq_true_iff.mp h with h | h
      · rcases Bool.or_eq_true_iff.mp h with h | h
        · exact Nat.lt_of_le_of_lt (hupper h) (by decide)
        · exact Nat.lt_of_le_of_lt (hlower h) (by decide)
      · exact Nat.lt_of_le_of_lt (hdigit h) (by decide)
    · rw [eq_of_beq hline]
      decide
  · have hsigns :
        ['$', '%', '#', '<', '>', '(', ')', ','].all fun c => decide (c.toNat < 128) := rfl
    exact of_decide_eq_true (List.all_eq_true.mp hsigns c (List.contains_iff_mem.mp hsign))

theorem admits_of_value? {text : List Char} {value : UInt16}
    (h : Numeral.value? text = some value) : ∀ c ∈ text, admits c = true := by
  intro c hc
  rcases Numeral.mem_of_value? h hc with rfl | rfl | hdigit
  · decide
  · decide
  · exact admits_of_continuesName (Label.continuesName_of_digitValue? hdigit)

theorem admits_of_isName {text : List Char} (h : Label.isName text = true) :
    ∀ c ∈ text, admits c = true :=
  fun c hc => admits_of_continuesName (Label.continuesName_of_isName h c hc)

theorem admits_of_target? {text : List Char} {target : Target} (h : target? text = some target) :
    ∀ c ∈ text, admits c = true := by
  rw [target?] at h
  split at h
  · rename_i hname
    exact admits_of_isName hname
  · obtain ⟨value, hvalue, -⟩ := Option.map_eq_some_iff.mp h
    exact admits_of_value? hvalue

theorem admits_indexLetters (index : Option IndexRegister) :
    ∀ c ∈ indexLetters index, admits c = true := by
  apply List.all_eq_true.mp
  rcases index with - | (- | -) <;> rfl

theorem Spells.admits {text : List Char} {read : Operand} (h : Spells text read) :
    ∀ c ∈ text, admits c = true := by
  have hsign (selector : ByteSelector) : Operand.admits (selectorSign selector) = true := by
    cases selector <;> decide
  cases h with
  | implied => simp
  | accumulator => exact List.all_eq_true.mp rfl
  | immediate hvalue => exact List.forall_mem_cons.mpr ⟨by decide, admits_of_value? hvalue⟩
  | half selector hvalue =>
    exact List.forall_mem_cons.mpr
      ⟨by decide, List.forall_mem_cons.mpr ⟨hsign selector, admits_of_value? hvalue⟩⟩
  | addressByte selector hname =>
    exact List.forall_mem_cons.mpr
      ⟨by decide, List.forall_mem_cons.mpr ⟨hsign selector, admits_of_isName hname⟩⟩
  | zeroPage index hvalue | absolute index hvalue hlarge =>
    exact List.forall_mem_append.mpr ⟨admits_of_value? hvalue, admits_indexLetters index⟩
  | @label name index hname hletter =>
    exact List.forall_mem_append.mpr ⟨admits_of_isName hname, admits_indexLetters index⟩
  | indirect hvalue | indirectY hvalue =>
    exact List.forall_mem_cons.mpr ⟨by decide,
      List.forall_mem_append.mpr ⟨admits_of_value? hvalue, List.all_eq_true.mp rfl⟩⟩
  | indirectX hvalue =>
    exact List.forall_mem_cons.mpr ⟨by decide, List.forall_mem_append.mpr
      ⟨List.forall_mem_append.mpr ⟨admits_of_value? hvalue, List.all_eq_true.mp rfl⟩,
        List.all_eq_true.mp rfl⟩⟩

theorem admits_of_classify {text : List Char} {read : Operand}
    (h : classify text = .ok (some read)) : ∀ c ∈ text, admits c = true :=
  (spells_of_classify h).admits

theorem admits_of_classifyBranch {text : List Char} {read : Operand}
    (h : classifyBranch text = some read) : ∀ c ∈ text, admits c = true := by
  rcases Option.or_eq_some_iff.mp h with hbare | ⟨-, hbranch⟩
  · exact (spells_of_ofBare? hbare).admits
  · obtain ⟨target, htarget, -⟩ := Option.map_eq_some_iff.mp hbranch
    exact admits_of_target? htarget

end Operand
end Nmos6502
