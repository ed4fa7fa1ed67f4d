import CrossShell.Text
import CrossShell.Text.CharRange

/-!
# White space

`isBlank` is the Unicode property `White_Space`. It is wider than the white space that separates
the words of a command line: `\u00a0` is blank, and yet part of a word.

* `trim`: a text without blanks at its two ends.
* `isBlank_of_isWhitespace`: the white space of ASCII is blank.
-/
namespace CrossShell.Text

/-- The ranges of the property `White_Space`. -/
def blankRanges : List (Nat × Nat) :=
  [(0x9, 0xD), (0x20, 0x20), (0x85, 0x85), (0xA0, 0xA0), (0x1680, 0x1680), (0x2000, 0x200A),
   (0x2028, 0x2029), (0x202F, 0x202F), (0x205F, 0x205F), (0x3000, 0x3000)]

/-- Whether a character is white space. -/
def isBlank (c : Char) : Bool := inRanges blankRanges c

theorem isBlank_of_isWhitespace {c : Char} (h : c.isWhitespace) : isBlank c := by
  simp only [Char.isWhitespace, Bool.or_eq_true, decide_eq_true_eq] at h
  rcases h with ((h | h) | h) | h <;> subst h <;> decide

/-- Without the blanks at the front. -/
def trimFront (t : Text) : Text := t.dropWhile isBlank

/-- Without the blanks at the back. -/
def trimBack (t : Text) : Text := (t.reverse.dropWhile isBlank).reverse

/-- Without the blanks at both ends. -/
def trim (t : Text) : Text := trimBack (trimFront t)

end CrossShell.Text
