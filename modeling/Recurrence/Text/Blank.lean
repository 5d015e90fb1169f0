/-!
# Blanks

White space in the widest sense: tabs and line ends, the four separator controls, the next-line
control, and every space and separator of any script.

* `isBlank`: whether a character is white space
* `strip`: a text without the white space at its two ends
-/

namespace Recurrence.Text

/-- White space of any script. -/
def isBlank (c : Char) : Bool :=
  let n := c.toNat
  (9 ≤ n && n ≤ 13) || (28 ≤ n && n ≤ 32) || n == 0x85 || n == 0xA0 || n == 0x1680 ||
    (0x2000 ≤ n && n ≤ 0x200A) || n == 0x2028 || n == 0x2029 || n == 0x202F || n == 0x205F ||
    n == 0x3000

def stripLeft (s : List Char) : List Char := s.dropWhile isBlank

def stripRight (s : List Char) : List Char := (s.reverse.dropWhile isBlank).reverse

/-- The text without the white space at its ends. -/
def strip (s : List Char) : List Char := stripRight (stripLeft s)

@[simp] theorem strip_nil : strip [] = [] := rfl

theorem isBlank_of_isWhitespace {c : Char} (h : c.isWhitespace = true) : isBlank c = true := by
  simp only [Char.isWhitespace, Bool.or_eq_true, decide_eq_true_eq] at h
  rcases h with ((h | h) | h) | h <;> subst h <;> decide

end Recurrence.Text
