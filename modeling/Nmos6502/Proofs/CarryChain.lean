import Mathlib.Tactic.LinearCombination
import Nmos6502.Arithmetic
import Nmos6502.Proofs.ByteNumber

/-!
# Carries from byte to byte

Numbers of several bytes are added and subtracted byte after byte, each with the carry out of the
one below. Main statements: `ofDigits_combine` for the value of the result in any base, and
`overflow_combine_add_iff` for the overflow of the highest byte.
-/

set_option autoImplicit false

namespace Nmos6502.Arithmetic

/-- Bytes combined from the lowest on, each pair with the carry out of the one below. -/
def combine (f : UInt8 → UInt8 → Bool → Sum) : Bool → List (UInt8 × UInt8) → List Sum
  | _, [] => []
  | carry, (a, b) :: rest => f a b carry :: combine f (f a b carry).carry rest

/-- How a sum or difference of digits splits into a digit and a carry. What a carry is worth in the
next place is one more when it is set; a difference counts a clear carry as a borrow. -/
structure Splits (f : UInt8 → UInt8 → Bool → Sum) (base : Nat) (sign : Int)
    (digit : UInt8 → Nat) (worth : Bool → Int) (Valid : UInt8 → Prop) : Prop where
  valid : ∀ a b carry, Valid a → Valid b → Valid (f a b carry).result
  value : ∀ a b carry, Valid a → Valid b →
    digit (f a b carry).result + base * worth (f a b carry).carry =
      digit a + sign * digit b + worth carry

def sumWorth (carry : Bool) : Int := carry.toNat

def differenceWorth (carry : Bool) : Int := carry.toNat - 1

theorem splits_add : Splits add 256 1 UInt8.toNat sumWorth fun _ => True where
  valid _ _ _ _ _ := trivial
  value a b carry _ _ := by
    have ha := a.toNat_lt
    have hb := b.toNat_lt
    have hcarry := carry.toNat_le
    simp only [add, sumWorth, UInt8.toNat_ofNat']
    by_cases h : 255 < a.toNat + b.toNat + carry.toNat
    · simp only [h, decide_true, Bool.toNat_true]
      omega
    · simp only [h, decide_false, Bool.toNat_false]
      omega

theorem correct_spec (sum : Nat) (h : sum ≤ 19) :
    (if 9 < sum then (sum + 6) % 16 else sum) ≤ 9 ∧
      (if 9 < sum then (sum + 6) % 16 else sum) + 10 * (decide (9 < sum)).toNat = sum := by
  by_cases hten : 9 < sum
  · simp only [hten, decide_true, if_true, Bool.toNat_true]
    omega
  · simp only [hten, decide_false, if_false, Bool.toNat_false]
    omega

theorem decimal_pair {high low : Nat} (hhigh : high ≤ 9) (hlow : low ≤ 9) :
    IsDecimal (UInt8.ofNat (high * 16 + low)) ∧
      decimalByte (UInt8.ofNat (high * 16 + low)) = high * 10 + low := by
  have hvalue : (UInt8.ofNat (high * 16 + low)).toNat = high * 16 + low :=
    UInt8.toNat_ofNat_of_lt' (by change _ < 256; omega)
  rw [IsDecimal, decimalByte, hvalue]
  omega

theorem addDecimal_spec {a b : UInt8} (carry : Bool) (ha : IsDecimal a) (hb : IsDecimal b) :
    IsDecimal (addDecimal a b carry).result ∧
      decimalByte (addDecimal a b carry).result + 100 * (addDecimal a b carry).carry.toNat =
        decimalByte a + decimalByte b + carry.toNat := by
  have hcarry := carry.toNat_le
  obtain ⟨hahigh, halow⟩ := ha
  obtain ⟨hbhigh, hblow⟩ := hb
  simp only [addDecimal, decide_eq_true_eq, decimalByte.eq_1 a, decimalByte.eq_1 b]
  obtain ⟨hlow, hunits⟩ := correct_spec (a.toNat % 16 + b.toNat % 16 + carry.toNat) (by omega)
  have hhalf := (decide (9 < a.toNat % 16 + b.toNat % 16 + carry.toNat)).toNat_le
  generalize (decide (9 < a.toNat % 16 + b.toNat % 16 + carry.toNat)).toNat = half at *
  obtain ⟨hhigh, htens⟩ := correct_spec (a.toNat / 16 + b.toNat / 16 + half) (by omega)
  obtain ⟨hvalid, hvalue⟩ := decimal_pair hhigh hlow
  rw [hvalue]
  exact ⟨hvalid, by omega⟩

theorem splits_addDecimal : Splits addDecimal 100 1 decimalByte sumWorth IsDecimal where
  valid _ _ carry ha hb := (addDecimal_spec carry ha hb).1
  value _ _ carry ha hb := by
    have hvalue := (addDecimal_spec carry ha hb).2
    rw [sumWorth, sumWorth]
    omega

theorem correct_difference (difference : Int) (hleast : -10 ≤ difference)
    (hmost : difference ≤ 9) :
    ∃ (digit : Nat) (borrow : Int), digit ≤ 9 ∧ 0 ≤ borrow ∧ borrow ≤ 1 ∧
      ((if difference < 0 then difference + 10 else difference) % 16).toNat = digit ∧
      (if difference < 0 then 1 else 0) = borrow ∧ (digit : Int) = difference + 10 * borrow := by
  by_cases hnegative : difference < 0
  · simp only [hnegative, if_true]
    exact ⟨_, 1, by omega, by decide, by decide, rfl, rfl, by omega⟩
  · simp only [hnegative, if_false]
    exact ⟨_, 0, by omega, by decide, by decide, rfl, rfl, by omega⟩

theorem subtractDecimal_spec {a b : UInt8} (carry : Bool) (ha : IsDecimal a) (hb : IsDecimal b) :
    IsDecimal (subtractDecimal a b carry).result ∧
      (decimalByte (subtractDecimal a b carry).result : Int) +
          100 * ((subtractDecimal a b carry).carry.toNat - 1) =
        decimalByte a - decimalByte b + (carry.toNat - 1) := by
  obtain ⟨hahigh, halow⟩ := ha
  obtain ⟨hbhigh, hblow⟩ := hb
  have hborrow : (if carry = true then 0 else 1 : Int) = 1 - carry.toNat := by cases carry <;> rfl
  have hcarry := carry.toNat_le
  simp only [subtractDecimal, hborrow, decimalByte.eq_1 a, decimalByte.eq_1 b]
  obtain ⟨low, half, hlow, hnone, hone, hlowDigit, hhalf, hunits⟩ := correct_difference
    ((a.toNat % 16 : Nat) - (b.toNat % 16 : Nat) - (1 - carry.toNat))
    (by omega) (by omega)
  rw [hlowDigit, hhalf]
  obtain ⟨high, borrow, hhigh, hnone', hone', hhighDigit, -, htens⟩ := correct_difference
    ((a.toNat / 16 : Nat) - (b.toNat / 16 : Nat) - half) (by omega) (by omega)
  rw [hhighDigit]
  obtain ⟨hvalid, hvalue⟩ := decimal_pair hhigh hlow
  rw [hvalue]
  refine ⟨hvalid, ?_⟩
  -- The binary difference is negative exactly if the tens had to borrow.
  by_cases hdifference : (0 : Int) ≤ a.toNat - b.toNat - (1 - carry.toNat)
  · simp only [hdifference, decide_true, Bool.toNat_true]
    omega
  · simp only [hdifference, decide_false, Bool.toNat_false]
    omega

theorem splits_subtractDecimal :
    Splits subtractDecimal 100 (-1) decimalByte differenceWorth IsDecimal where
  valid _ _ carry ha hb := (subtractDecimal_spec carry ha hb).1
  value _ _ carry ha hb := by
    have hvalue := (subtractDecimal_spec carry ha hb).2
    rw [differenceWorth, differenceWorth]
    omega

section
variable {f : UInt8 → UInt8 → Bool → Sum} {base : Nat} {sign : Int} {digit : UInt8 → Nat}
  {worth : Bool → Int} {Valid : UInt8 → Prop}

theorem length_combine (carry : Bool) (pairs : List (UInt8 × UInt8)) :
    (combine f carry pairs).length = pairs.length := by
  induction pairs generalizing carry with
  | nil => rfl
  | cons pair rest ih => rw [combine, List.length_cons, ih, List.length_cons]

theorem Splits.valid_combine (h : Splits f base sign digit worth Valid) (carry : Bool)
    {pairs : List (UInt8 × UInt8)} (hpairs : ∀ pair ∈ pairs, Valid pair.1 ∧ Valid pair.2) :
    ∀ sum ∈ combine f carry pairs, Valid sum.result := by
  induction pairs generalizing carry with
  | nil => exact fun _ hsum => absurd hsum List.not_mem_nil
  | cons pair rest ih =>
    obtain ⟨⟨ha, hb⟩, hrest⟩ := List.forall_mem_cons.mp hpairs
    exact List.forall_mem_cons.mpr ⟨h.valid _ _ carry ha hb, ih _ hrest⟩

/-- The carry out of a byte is what its place is short of, so the carries cancel from place to
place up to the last. -/
theorem Splits.ofDigits_combine (h : Splits f base sign digit worth Valid) (carry : Bool)
    {pairs : List (UInt8 × UInt8)} (hpairs : ∀ pair ∈ pairs, Valid pair.1 ∧ Valid pair.2) :
    (Nat.ofDigits base (((combine f carry pairs).map Sum.result).map digit) : Nat) +
        (base : Int) ^ pairs.length *
          worth (((combine f carry pairs).map Sum.carry).getLastD carry) =
      (Nat.ofDigits base ((pairs.map Prod.fst).map digit) : Nat) +
        sign * (Nat.ofDigits base ((pairs.map Prod.snd).map digit) : Nat) + worth carry := by
  induction pairs generalizing carry with
  | nil => simp [combine, Nat.ofDigits_nil]
  | cons pair rest ih =>
    obtain ⟨⟨ha, hb⟩, hrest⟩ := List.forall_mem_cons.mp hpairs
    -- The carry out of this place is what the higher places begin with.
    have hplace := h.value pair.1 pair.2 carry ha hb
    have hhigher := ih (f pair.1 pair.2 carry).carry hrest
    simp only [combine, List.map_cons, Nat.ofDigits_cons, List.length_cons, List.getLastD_cons,
      pow_succ, Nat.cast_add, Nat.cast_mul]
    linear_combination hplace + (base : Int) * hhigher

end

theorem overflow_combine_add (carry overflow first second third : Bool)
    (hlower : overflow = (first == second && first != third))
    (pairs : List (UInt8 × UInt8)) :
    ((combine add carry pairs).map Sum.overflow).getLastD overflow =
      (((pairs.map Prod.fst).map Status.isNegative).getLastD first ==
          ((pairs.map Prod.snd).map Status.isNegative).getLastD second &&
        ((pairs.map Prod.fst).map Status.isNegative).getLastD first !=
          (((combine add carry pairs).map Sum.result).map Status.isNegative).getLastD third) := by
  induction pairs generalizing carry overflow first second third with
  | nil => exact hlower
  | cons pair rest ih =>
    simp only [combine, List.map_cons, List.getLastD_cons]
    exact ih _ _ _ _ _ rfl

theorem beq_and_bne_iff (a b c : Bool) : (a == b && a != c) = true ↔
    (a = true ↔ b = true) ∧ ¬ (a = true ↔ c = true) := by
  cases a <;> cases b <;> cases c <;> simp

theorem not_fits_iff {place x y r carryIn carryOut : Nat} (heven : place % 2 = 0) (hx : x < place)
    (hy : y < place) (hr : r < place) (hin : carryIn ≤ 1) (hout : carryOut ≤ 1)
    (hsum : r + place * carryOut = x + y + carryIn) :
    let signed (number : Nat) : Int := if 2 * number < place then number else number - place
    ¬ (-place ≤ 2 * (signed x + signed y + carryIn) ∧
        2 * (signed x + signed y + carryIn) < place) ↔
      (place ≤ 2 * x ↔ place ≤ 2 * y) ∧ ¬ (place ≤ 2 * x ↔ place ≤ 2 * r) := by
  have hplace : carryOut = 0 ∨ carryOut = 1 := by omega
  dsimp only
  rcases hplace with rfl | rfl
  · rw [Nat.mul_zero] at hsum
    split <;> split <;> omega
  · rw [Nat.mul_one] at hsum
    split <;> split <;> omega

section
variable (carry : Bool) (pairs : List (UInt8 × UInt8))

theorem littleEndian_combine_add :
    littleEndian ((combine add carry pairs).map Sum.result) +
        256 ^ pairs.length * (((combine add carry pairs).map Sum.carry).getLastD carry).toNat =
      littleEndian (pairs.map Prod.fst) + littleEndian (pairs.map Prod.snd) + carry.toNat := by
  have hpairs : ∀ pair ∈ pairs, True ∧ True := fun _ _ => ⟨trivial, trivial⟩
  have hvalue := splits_add.ofDigits_combine carry hpairs
  simp only [← littleEndian_eq_ofDigits, sumWorth, one_mul] at hvalue
  exact_mod_cast hvalue

/-- A sum leaves the range of two's complement exactly if it has the sign that neither of its terms
has. -/
theorem overflow_combine_add_iff (overflow : Bool) (hne : pairs ≠ []) :
    ((combine add carry pairs).map Sum.overflow).getLastD overflow = true ↔
      ¬ FitsSigned pairs.length (signedLittleEndian (pairs.map Prod.fst) +
        signedLittleEndian (pairs.map Prod.snd) + carry.toNat) := by
  have hresults : (combine add carry pairs).map Sum.result ≠ [] := by
    rw [← List.length_pos_iff, List.length_map, length_combine]
    exact List.length_pos_iff.mpr hne
  have hfirst := isNegative_highest_iff (List.map_eq_nil_iff.not.mpr hne : pairs.map Prod.fst ≠ [])
    true
  have hsecond := isNegative_highest_iff (List.map_eq_nil_iff.not.mpr hne : pairs.map Prod.snd ≠ [])
    true
  have hthird := isNegative_highest_iff hresults (!overflow)
  have hx := littleEndian_lt (pairs.map Prod.fst)
  have hy := littleEndian_lt (pairs.map Prod.snd)
  have hr := littleEndian_lt ((combine add carry pairs).map Sum.result)
  simp only [List.length_map, length_combine] at hfirst hsecond hthird hx hy hr
  have hsigns := not_fits_iff (even_pow_length hne) hx hy hr carry.toNat_le (Bool.toNat_le _)
    (littleEndian_combine_add carry pairs)
  dsimp only at hsigns
  -- Where there is no byte yet, these signs stand for the flag as it was.
  have hnone : overflow = (true == true && true != !overflow) := by cases overflow <;> rfl
  rw [overflow_combine_add carry overflow true true (!overflow) hnone pairs, beq_and_bne_iff,
    hfirst, hsecond, hthird, ← hsigns]
  simp only [FitsSigned, signedLittleEndian, List.length_map, Nat.cast_pow, Nat.cast_ofNat]

theorem combine_subtract : combine subtract carry pairs =
    combine add carry ((pairs.map Prod.fst).zip ((pairs.map Prod.snd).map (~~~ ·))) := by
  induction pairs generalizing carry with
  | nil => rfl
  | cons pair rest ih => exact congrArg _ (ih _)

theorem littleEndian_combine_subtract :
    (littleEndian (pairs.map Prod.fst) : Int) - littleEndian (pairs.map Prod.snd) -
        (1 - carry.toNat) =
      littleEndian ((combine subtract carry pairs).map Sum.result) -
        (1 - (((combine subtract carry pairs).map Sum.carry).getLastD carry).toNat) *
          256 ^ pairs.length := by
  have hcomplement := littleEndian_complement (pairs.map Prod.snd)
  have hsum := littleEndian_combine_add carry
    ((pairs.map Prod.fst).zip ((pairs.map Prod.snd).map (~~~ ·)))
  rw [← combine_subtract] at hsum
  rw [List.map_fst_zip (by simp), List.map_snd_zip (by simp)] at hsum
  simp only [List.length_zip, List.length_map, Nat.min_self] at hsum hcomplement
  zify at hsum hcomplement
  linear_combination -hsum - hcomplement

theorem overflow_combine_subtract_iff (overflow : Bool) (hne : pairs ≠ []) :
    ((combine subtract carry pairs).map Sum.overflow).getLastD overflow = true ↔
      ¬ FitsSigned pairs.length (signedLittleEndian (pairs.map Prod.fst) -
        signedLittleEndian (pairs.map Prod.snd) - (1 - carry.toNat)) := by
  have hcomplement := signedLittleEndian_complement
    (List.map_eq_nil_iff.not.mpr hne : pairs.map Prod.snd ≠ [])
  have hturned : (pairs.map Prod.fst).zip ((pairs.map Prod.snd).map (~~~ ·)) ≠ [] := by
    rw [← List.length_pos_iff, List.length_zip, List.length_map, List.length_map, List.length_map,
      Nat.min_self]
    exact List.length_pos_iff.mpr hne
  rw [combine_subtract, overflow_combine_add_iff carry _ overflow hturned,
    List.map_fst_zip (by simp), List.map_snd_zip (by simp), hcomplement]
  simp only [List.length_zip, List.length_map, Nat.min_self]
  rw [show ∀ x y c : Int, x + (-y - 1) + c = x - y - (1 - c) by intros; ring]

end

section
variable (carry : Bool) {pairs : List (UInt8 × UInt8)}

theorem decimalNumber_combine_add (h : ∀ pair ∈ pairs, IsDecimal pair.1 ∧ IsDecimal pair.2) :
    decimalNumber ((combine addDecimal carry pairs).map Sum.result) + 100 ^ pairs.length *
        (((combine addDecimal carry pairs).map Sum.carry).getLastD carry).toNat =
      decimalNumber (pairs.map Prod.fst) + decimalNumber (pairs.map Prod.snd) + carry.toNat := by
  have hvalue := splits_addDecimal.ofDigits_combine carry h
  simp only [← decimalNumber.eq_1, sumWorth, one_mul] at hvalue
  exact_mod_cast hvalue

theorem decimalNumber_combine_subtract (h : ∀ pair ∈ pairs, IsDecimal pair.1 ∧ IsDecimal pair.2) :
    (decimalNumber (pairs.map Prod.fst) : Int) - decimalNumber (pairs.map Prod.snd) -
        (1 - carry.toNat) =
      decimalNumber ((combine subtractDecimal carry pairs).map Sum.result) -
        (1 - (((combine subtractDecimal carry pairs).map Sum.carry).getLastD carry).toNat) *
          100 ^ pairs.length := by
  have hvalue := splits_subtractDecimal.ofDigits_combine carry h
  simp only [← decimalNumber.eq_1, differenceWorth, Nat.cast_ofNat] at hvalue
  linear_combination -hvalue

end

end Nmos6502.Arithmetic
