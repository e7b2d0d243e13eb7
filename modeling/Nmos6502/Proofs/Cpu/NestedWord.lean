set_option autoImplicit false

namespace Nmos6502

inductive Saved where
  | accumulator
  | status
  | call
  | interrupt
  deriving DecidableEq, Repr

inductive Move where
  | opens (saved : Saved)
  | closes (saved : Saved)
  | quiet
  /-- Writes to the stack or moves its pointer in another way. -/
  | stray
  deriving DecidableEq, Repr

def Saved.width : Saved → Nat
  | accumulator | status => 1
  | call => 2
  | interrupt => 3

def Move.growth : Move → Int
  | opens saved => saved.width
  | closes saved => -saved.width
  | quiet | stray => 0

/-- How many bytes are pushed and not yet pulled after a word. -/
def pending : List Move → Int
  | [] => 0
  | move :: word => move.growth + pending word

theorem pending_append (first second : List Move) :
    pending (first ++ second) = pending first + pending second := by
  induction first with
  | nil => simp [pending]
  | cons move first ih => rw [List.cons_append, pending, pending, ih, Int.add_assoc]

/-- Words in which what is saved is recovered in the reverse order. -/
inductive Nested : List Move → Prop where
  | nil : Nested []
  | quiet {word : List Move} (rest : Nested word) : Nested (.quiet :: word)
  | nest {inner word : List Move} (saved : Saved) (inside : Nested inner) (rest : Nested word) :
      Nested (.opens saved :: (inner ++ .closes saved :: word))

/-- Whether no more bytes than there is room for are ever on the stack. -/
def Within (room : Nat) (word : List Move) : Prop := ∀ start, start <+: word → pending start ≤ room

namespace Nested

theorem pending_eq_zero {word : List Move} (h : Nested word) : pending word = 0 := by
  induction h with
  | nil => rfl
  | quiet _ ih => simp [pending, Move.growth, ih]
  | nest saved _ _ hinner hrest =>
    rw [pending, pending_append, pending, hinner, hrest]
    simp only [Move.growth]
    omega

theorem pending_take_nonneg {word : List Move} (h : Nested word) (m : Nat) :
    0 ≤ pending (word.take m) := by
  induction h generalizing m with
  | nil => simp [pending]
  | quiet _ ih =>
    cases m with
    | zero => simp [pending]
    | succ m => simpa [pending, Move.growth] using ih m
  | @nest inner word saved hinside _ hinner hrest =>
    cases m with
    | zero => simp [pending]
    | succ m =>
      rw [List.take_succ_cons, List.take_append, pending, pending_append]
      have hfirst := hinner m
      simp only [Move.growth]
      cases hm : m - inner.length with
      | zero =>
        rw [List.take_zero, pending]
        omega
      | succ n =>
        rw [List.take_of_length_le (by omega), hinside.pending_eq_zero, List.take_succ_cons,
          pending]
        have hlast := hrest n
        simp only [Move.growth]
        omega

/-- In front of each closing move there is the saving that it undoes. -/
theorem exists_opener {word before after : List Move} {saved : Saved} (h : Nested word)
    (hword : word = before ++ .closes saved :: after) :
    ∃ start inner, before = start ++ .opens saved :: inner ∧ Nested inner := by
  induction h generalizing before after with
  | nil => simp at hword
  | quiet _ ih =>
    cases before with
    | nil => simp at hword
    | cons move before =>
      obtain ⟨rfl, htail⟩ := List.cons.inj hword
      obtain ⟨start, inner, rfl, hinner⟩ := ih htail
      exact ⟨.quiet :: start, inner, rfl, hinner⟩
  | @nest inside rest opened hinside _ hinner hrest =>
    cases before with
    | nil => simp at hword
    | cons move before =>
      obtain ⟨rfl, htail⟩ := List.cons.inj hword
      -- the closing move is the one of the outer pair, or lies behind it, or inside
      rcases List.append_eq_append_iff.mp htail with ⟨gap, rfl, hgap⟩ | ⟨gap, hinside', hgap⟩
      · cases gap with
        | nil =>
          obtain ⟨hsame, -⟩ := List.cons.inj hgap
          cases hsame
          exact ⟨[], inside, by simp, hinside⟩
        | cons first gap =>
          obtain ⟨rfl, hafter⟩ := List.cons.inj hgap
          obtain ⟨start, inner, rfl, hnested⟩ := hrest hafter
          exact ⟨.opens opened :: (inside ++ .closes opened :: start), inner, by simp, hnested⟩
      · cases gap with
        | nil =>
          obtain ⟨hsame, -⟩ := List.cons.inj hgap
          cases hsame
          exact ⟨[], before, rfl, by simpa [hinside'] using hinside⟩
        | cons first gap =>
          obtain ⟨rfl, -⟩ := List.cons.inj hgap
          obtain ⟨start, inner, rfl, hnested⟩ := hinner hinside'
          exact ⟨.opens opened :: start, inner, rfl, hnested⟩

end Nested
end Nmos6502
