import CrossShell.Text

/-!
# Tokens of a command line

A token is a piece of a line together with the bytes it covers. A token that opens with a quote
keeps its quotes in its value and remembers which quote it was; only tokens without a quote
are read as shell syntax.

* `Token.isBare`: the token is unquoted and reads as a given text.
* `Token.isOperator`: one of the fixed operators of `operators`. A lone `&` is none.
* `Token.touches`: nothing stands between two tokens.
-/
namespace CrossShell

/-- The two quotes of a shell. -/
inductive Quote where
  /-- `'`: everything up to the next `'` is literal. -/
  | single
  /-- `"`: a backslash protects the character after it. -/
  | double
  deriving DecidableEq, Repr

namespace Quote

/-- The character that opens and closes the quote. -/
def char : Quote → Char
  | single => '\''
  | double => '"'

/-- The quote that a character opens. -/
def ofChar? (c : Char) : Option Quote :=
  if c = '\'' then some single else if c = '"' then some double else none

@[simp] theorem ofChar?_char (q : Quote) : ofChar? q.char = some q := by
  cases q <;> rfl

end Quote

/-- A piece of a line: its text, the bytes `start ≤ i < stop` it covers, and its quote. -/
structure Token where
  /-- The text of the piece, quotes included. -/
  value : Text
  /-- Offset of the first byte. -/
  start : Nat
  /-- Offset behind the last byte. -/
  stop : Nat
  /-- The quote the piece opens with, if it is read as quoted. -/
  quote : Option Quote
  deriving DecidableEq, Repr

/-- The operators of a line. Where two fit, the earlier one is read. -/
def operators : List Text :=
  ["&&", "||", "|&", "<<", ">>", "|", ";", "<", ">", "(", ")", "\x7b", "\x7d"]

/-- Whether a character can begin an operator and so ends a word. -/
def isOperatorStart (c : Char) : Bool :=
  c ∈ ['<', '>', '|', '&', ';', '(', ')', '{', '}']

namespace Token

/-- Whether the token is unquoted and reads `text`. -/
def isBare (t : Token) (text : Text) : Bool := t.quote.isNone && t.value == text

/-- Whether the token is one of the fixed operators. -/
def isOperator (t : Token) : Bool := t.quote.isNone && operators.contains t.value

/-- Whether the token is a here-document with its delimiter, `<<WORD`. -/
def isHeredoc (t : Token) : Bool :=
  t.quote.isNone && 2 < Text.size t.value && List.isPrefixOf "<<".toList t.value

/-- Whether the token ends a command: `&&`, `||`, `|`, `;` or `|&`. -/
def isConnector (t : Token) : Bool :=
  t.quote.isNone && ["&&".toList, "||", "|", ";", "|&"].contains t.value

/-- Whether `next` starts where this token ends. -/
def touches (t next : Token) : Bool := t.stop == next.start

end Token

end CrossShell
