set_option autoImplicit false

namespace Nmos6502.Text

/-- The characters with the Unicode property White_Space. -/
def isBlank (c : Char) : Bool :=
  let code := c.toNat
  (9 ≤ code && code ≤ 13) || code == 0x20 || code == 0x85 || code == 0xA0 || code == 0x1680 ||
    (0x2000 ≤ code && code ≤ 0x200A) || code == 0x2028 || code == 0x2029 || code == 0x202F ||
    code == 0x205F || code == 0x3000

def trimStart (text : List Char) : List Char := text.dropWhile isBlank

def trimEnd (text : List Char) : List Char := (text.reverse.dropWhile isBlank).reverse

def trim (text : List Char) : List Char := trimEnd (trimStart text)

def removeBlanks (text : List Char) : List Char := text.filter fun c => !isBlank c

theorem isBlank_of_isWhitespace {c : Char} (h : c.isWhitespace = true) : isBlank c = true := by
  simp only [Char.isWhitespace, Bool.or_eq_true, decide_eq_true_eq] at h
  rcases h with ((rfl | rfl) | rfl) | rfl <;> decide

theorem trimStart_of_blank {text : List Char} (h : ∀ c ∈ text, isBlank c = true) :
    trimStart text = [] := by
  induction text with
  | nil => rfl
  | cons c cs ih =>
    have hcs : trimStart cs = [] := ih fun d hd => h d (by simp [hd])
    simpa [trimStart, h c (by simp)] using hcs

theorem trim_of_blank {text : List Char} (h : ∀ c ∈ text, isBlank c = true) : trim text = [] := by
  simp [trim, trimEnd, trimStart_of_blank h]

end Nmos6502.Text
