import CrossShell.Yaml.Node
import CrossShell.Yaml.Plain

/-!
# Writing nodes

Blocks are indented by two spaces; the items of a list stand at the indentation of their key.

* `Node.ofText`: a text, without quotes wherever it then still reads as the same text.
* `Node.render`: the document for a node.
-/
namespace CrossShell.Yaml

/-- The characters that cannot start a plain scalar. -/
def isLeadingIndicator (c : Char) : Bool := "#,[]\x7b\x7d&*!|>'\"%@\x60".toList.contains c

/-- Whether the start of a text would be taken for something else. -/
def hasLeadingIndicator : Text → Bool
  | [] => false
  | c :: cs =>
    isLeadingIndicator c || ((c == '?' || c == ':' || c == '-') && startsBlank cs) ||
      documentStartMark.isPrefixOf (c :: cs) || documentEndMark.isPrefixOf (c :: cs)

/-- Whether a colon in front of a blank or a `#` behind one stands in a text; `blank` tells of the
character in front. -/
def hasInnerIndicator (blank : Bool) : Text → Bool
  | [] => false
  | c :: cs =>
    (c == ':' && startsBlank cs) || (c == '#' && blank) ||
      hasInnerIndicator (isSpace c || isBreak c || c == '\x00') cs

/-- Whether a text can be written without quotes at all. -/
def fitsPlain (t : Text) : Bool :=
  t.all isPrintable && !t.any isBreak && t.head? != some ' ' && t.getLast? != some ' ' &&
    !hasLeadingIndicator t && !hasInnerIndicator false t

/-- Whether a break and a blank are neighbours in a text. -/
def hasBlankAtBreak (t : Text) : Bool :=
  (t.zip t.tail).any fun (a, b) => (a == ' ' && isBreak b) || (isBreak a && b == ' ')

/-- Whether a text can be written in single quotes. -/
def fitsSingle (t : Text) : Bool := t.all isPrintable && !t.contains '\n' && !hasBlankAtBreak t

/-- One character in single quotes. -/
def singleChar (c : Char) : Text := if c = '\'' then "''" else [c]

/-- A text up to the closing single quote. Behind a break the indentation is written again. -/
def singleFrom (margin : Text) (broken : Bool) : Text → Text
  | [] => (if broken then margin else []) ++ "'"
  | c :: cs =>
    if isBreak c then c :: singleFrom margin true cs
    else (if broken then margin else []) ++ singleChar c ++ singleFrom margin false cs

/-- The last digits of a number in hexadecimal, in upper case. -/
def hexDigits (count n : Nat) : Text :=
  let digits := Text.toUpper (Nat.toDigits 16 n)
  List.replicate (count - digits.length) '0' ++ digits

/-- The escapes of one character, by what they stand for. -/
def escapeNames : List (Char × Char) :=
  [('\x00', '0'), ('\x07', 'a'), ('\x08', 'b'), ('\t', 't'), ('\n', 'n'), ('\x0b', 'v'),
   ('\x0c', 'f'), ('\r', 'r'), ('\x1b', 'e'), ('"', '"'), ('\\', '\\'), ('\u0085', 'N'),
   ('\u2028', 'L'), ('\u2029', 'P')]

/-- One character in double quotes. -/
def doubleChar (c : Char) : Text :=
  match escapeNames.lookup c with
  | some name => ['\\', name]
  | none =>
    if isPrintable c then [c]
    else if c.toNat ≤ 0xFF then '\\' :: 'x' :: hexDigits 2 c.toNat
    else if c.toNat ≤ 0xFFFF then '\\' :: 'u' :: hexDigits 4 c.toNat
    else '\\' :: 'U' :: hexDigits 8 c.toNat

/-- A text in double quotes. -/
def doubleQuoted (t : Text) : Text := "\"" ++ t.flatMap doubleChar ++ "\""

namespace Node

/-- A text as a scalar, plain if it stays a text so. -/
def ofText (t : Text) : Node := scalar (fitsPlain t && readsAsText t) t

/-- A truth value as a scalar. -/
def ofBool (b : Bool) : Node := scalar true (if b then "true" else "false")

/-- The null value. -/
def null : Node := scalar true "null"

/-- A scalar as it is written; a further line starts with `margin`. -/
def scalarText (margin : Text) (plain : Bool) (t : Text) : Text :=
  if plain then t
  else if fitsSingle t then '\'' :: singleFrom margin false t
  else doubleQuoted t

/-- The spaces of an indentation. -/
def margin (indent : Nat) : Text := List.replicate indent ' '

/-- Puts a space behind a key. -/
def behind (afterKey : Bool) (t : Text) : Text := if afterKey then ' ' :: t else t

/-- A key with its colon, given how it is written as a block. A scalar of at most 128 bytes on one
line stands alone; any other key needs a question mark. -/
def keyText (indent : Nat) (block : Text) : Node → Text
  | scalar plain t =>
    let key := scalarText (margin (indent + 2)) plain t
    if t.size ≤ 128 && !t.any isBreak then key ++ ":"
    else "? " ++ key ++ "\n" ++ margin indent ++ ":"
  | _ => "? " ++ block ++ margin indent ++ ":"

mutual

/-- A node behind its key or dash at an indentation, with the line break. A block starts on the next
line behind a key, and on the same line behind a dash. -/
def renderAt (indent : Nat) (afterKey : Bool) : Node → Text
  | scalar plain t => behind afterKey (scalarText (margin (indent + 2)) plain t ++ "\n")
  | sequence [] => behind afterKey "[]\n"
  | mapping [] => behind afterKey "\x7b\x7d\n"
  | sequence (x :: xs) =>
    if afterKey then "\n" ++ renderItems indent true (x :: xs)
    else renderItems (indent + 2) false (x :: xs)
  | mapping (p :: ps) =>
    if afterKey then "\n" ++ renderPairs (indent + 2) true (p :: ps)
    else renderPairs (indent + 2) false (p :: ps)

/-- The items of a list at an indentation; `fresh` if the first one is on a line of its own. -/
def renderItems (indent : Nat) (fresh : Bool) : List Node → Text
  | [] => []
  | x :: xs =>
    (if fresh then margin indent else []) ++ "- " ++ renderAt indent false x ++
      renderItems indent true xs

/-- The pairs of a map at an indentation; `fresh` if the first one is on a line of its own. -/
def renderPairs (indent : Nat) (fresh : Bool) : List (Node × Node) → Text
  | [] => []
  | p :: ps =>
    (if fresh then margin indent else []) ++ renderPair indent p ++ renderPairs indent true ps

/-- A key with its value. -/
def renderPair (indent : Nat) : Node × Node → Text
  | (k, v) => keyText indent (renderAt indent false k) k ++ renderAt indent true v

end

/-- The document of a node. -/
def render : Node → Text
  | mapping (p :: ps) => renderPairs 0 true (p :: ps)
  | sequence (x :: xs) => renderItems 0 true (x :: xs)
  | node => renderAt 0 false node

end Node

end CrossShell.Yaml
