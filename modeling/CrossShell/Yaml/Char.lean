import CrossShell.Text
import CrossShell.Text.CharRange

/-!
# Characters of YAML

* `isAllowed`: the characters that a document may hold.
* `isPrintable`: the characters that a scalar may hold without an escape.
* `isBreak`, `isSpace`: what separates lines and words.
* `normalizeBreaks`: the usual line breaks all become `\n`.
-/
namespace CrossShell.Yaml

/-- Whether a character may stand in a document. -/
def isAllowed (c : Char) : Bool :=
  Text.inRanges [(0x9, 0xA), (0xD, 0xD), (0x20, 0x7E), (0x85, 0x85), (0xA0, 0xD7FF),
    (0xE000, 0xFFFD), (0x10000, 0x10FFFF)] c

/-- Whether a character is written as it is. Those of four bytes are escaped. -/
def isPrintable (c : Char) : Bool :=
  Text.inRanges [(0xA, 0xA), (0x20, 0x7E), (0xA0, 0xD7FF), (0xE000, 0xFEFE), (0xFF00, 0xFFFD)] c

/-- Whether a character ends a line, once the usual breaks are normalized. -/
def isBreak (c : Char) : Bool := c = '\n' || c = '\u2028' || c = '\u2029'

/-- Whether a character separates words within a line. -/
def isSpace (c : Char) : Bool := c = ' ' || c = '\t'

/-- Whether a text starts with a space or a break, or is at its end. -/
def startsBlank : Text → Bool
  | [] => true
  | c :: _ => isSpace c || isBreak c

/-- Every usual line break as `\n`; a carriage return and a line feed are one break. -/
def normalizeBreaks : Text → Text
  | [] => []
  | '\r' :: '\n' :: cs => '\n' :: normalizeBreaks cs
  | c :: cs => (if c = '\r' ∨ c = '\u0085' then '\n' else c) :: normalizeBreaks cs

/-- Whether a text starts with a mark between documents: `---` or `...`, and then a blank. -/
def startsMarker (mark t : Text) : Bool := mark.isPrefixOf t && startsBlank (t.drop mark.length)

/-- The mark that starts a document. -/
def documentStartMark : Text := "---"

/-- The mark that ends a document. -/
def documentEndMark : Text := "..."

/-- Whether a text starts with either mark. -/
def startsAnyMarker (t : Text) : Bool :=
  startsMarker documentStartMark t || startsMarker documentEndMark t

end CrossShell.Yaml
