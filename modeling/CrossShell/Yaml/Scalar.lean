import CrossShell.Yaml.Char

/-!
# Scalars

A scalar runs over words and the gaps between them. Within a line a gap keeps its blanks. Over
lines it is folded: one line break becomes a space, and of several the first is dropped.

* `Gap`: the blanks and breaks since the last word.
* `plainFrom`: a scalar without quotes, up to where it ends.
* `quotedFrom`: a scalar in quotes, up to behind the closing quote.
-/
namespace CrossShell.Yaml

/-- What stands between two words of a scalar. -/
inductive Gap where
  /-- Blanks within a line. -/
  | blanks (t : Text)
  /-- A line break, and the breaks behind it. -/
  | lines (first : Char) (more : Text)
  /-- An escaped line break, and the breaks behind it. -/
  | joined (more : Text)
  deriving DecidableEq, Repr

namespace Gap

/-- No gap. -/
def none : Gap := blanks []

/-- Whether there is nothing between. -/
def isNone (g : Gap) : Bool := g == none

/-- Whether the gap runs over a line break. -/
def overLines : Gap → Bool
  | blanks _ => false
  | lines _ _ => true
  | joined _ => true

/-- The gap with one more blank. At the start of a line, blanks do not count. -/
def addSpace (c : Char) : Gap → Gap
  | blanks t => blanks (t ++ [c])
  | g => g

/-- The gap with one more break. Blanks at the end of a line do not count. -/
def addBreak (c : Char) : Gap → Gap
  | blanks _ => lines c []
  | lines first more => lines first (more ++ [c])
  | joined more => joined (more ++ [c])

/-- The text that the gap stands for. -/
def text : Gap → Text
  | blanks t => t
  | lines first more =>
    if first = '\n' then (if more.isEmpty then " " else more) else first :: more
  | joined more => more

end Gap

/-- A scalar that was read, and the text behind it. -/
structure ScalarRead where
  /-- Its value. -/
  value : Text
  /-- The text behind it. -/
  rest : Text
  /-- Whether the text behind it is on a later line. -/
  overLines : Bool
  deriving DecidableEq, Repr

namespace ScalarRead

/-- The scalar with more text in front. -/
def prepend (t : Text) (r : ScalarRead) : ScalarRead := { r with value := t ++ r.value }

end ScalarRead

/-- The characters with a meaning of their own in a flow collection. -/
def isFlowMark (c : Char) : Bool := ",[]\x7b\x7d".toList.contains c

/-- Whether a plain scalar that came to a word behind a gap ends in front of it. -/
def endsBefore (flow : Bool) (least column : Nat) (t : Text) : Bool :=
  (!flow && column < least) || (column == 0 && startsAnyMarker t) || t.head? == some '#'

/-- Reads a plain scalar. In block context its later lines are indented by at least `least`. A colon
in front of a flow mark is an error, and so is a tab in the indentation. -/
def plainFrom (flow : Bool) (least : Nat) (gap : Gap) (column : Nat) : Text → Option ScalarRead
  | [] => some ⟨[], [], gap.overLines⟩
  | c :: cs =>
    if isSpace c then
      if gap.overLines && column < least && c == '\t' then none
      else plainFrom flow least (gap.addSpace c) (column + 1) cs
    else if isBreak c then plainFrom flow least (gap.addBreak c) 0 cs
    else if !gap.isNone && endsBefore flow least column (c :: cs) then
      some ⟨[], c :: cs, gap.overLines⟩
    else if flow && c == ':' && cs.head?.any (fun d => isFlowMark d || d == '?') then none
    else if (c == ':' && startsBlank cs) || (flow && isFlowMark c) then
      some ⟨[], c :: cs, gap.overLines⟩
    else (plainFrom flow least .none (column + 1) cs).map (.prepend (gap.text ++ [c]))

/-- The value of a hexadecimal digit. -/
def hexDigit? (c : Char) : Option Nat :=
  if c.isDigit then some (c.toNat - '0'.toNat)
  else if 'a' ≤ c ∧ c ≤ 'f' then some (c.toNat - 'a'.toNat + 10)
  else if 'A' ≤ c ∧ c ≤ 'F' then some (c.toNat - 'A'.toNat + 10)
  else none

/-- The character whose code the first `count` characters write in hexadecimal. -/
def hexChar? (count : Nat) (t : Text) : Option Char := do
  let digits ← (t.take count).mapM hexDigit?
  let code := digits.foldl (16 * · + ·) 0
  if digits.length = count ∧ code.isValidChar then some (Char.ofNat code) else none

/-- The escapes of one character. -/
def simpleEscapes : List (Char × Char) :=
  [('0', '\x00'), ('a', '\x07'), ('b', '\x08'), ('t', '\t'), ('\t', '\t'), ('n', '\n'),
   ('v', '\x0b'), ('f', '\x0c'), ('r', '\r'), ('e', '\x1b'), (' ', ' '), ('"', '"'), ('/', '/'),
   ('\\', '\\'), ('N', '\u0085'), ('_', '\u00a0'), ('L', '\u2028'), ('P', '\u2029')]

/-- The escapes by code, with the number of their digits. -/
def codeEscapes : List (Char × Nat) := [('x', 2), ('u', 4), ('U', 8)]

/-- The character that an escape stands for, given the text behind its backslash, and the length of
the escape without the backslash. -/
def escape? : Text → Option (Char × Nat)
  | [] => none
  | c :: cs =>
    match simpleEscapes.lookup c with
    | some d => some (d, 1)
    | none => do
      let count ← codeEscapes.lookup c
      let d ← hexChar? count cs
      return (d, count + 1)

/-- Reads a quoted scalar behind its opening quote, while `skip` characters are still to be passed
over. A mark between documents may not stand at the start of a line. -/
def quotedFrom (double : Bool) (gap : Gap) (lineStart : Bool) : Nat → Text → Option ScalarRead
  | _, [] => none
  | skip + 1, _ :: cs => quotedFrom double gap lineStart skip cs
  | 0, c :: cs =>
    if isSpace c then quotedFrom double (gap.addSpace c) false 0 cs
    else if isBreak c then quotedFrom double (gap.addBreak c) true 0 cs
    else if lineStart && startsAnyMarker (c :: cs) then none
    else if double then
      if c == '"' then some ⟨gap.text, cs, false⟩
      else if c == '\\' then
        if cs.head?.any isBreak then
          (quotedFrom double (.joined []) true 1 cs).map (.prepend gap.text)
        else match escape? cs with
          | none => none
          | some (d, length) =>
            (quotedFrom double .none false length cs).map (.prepend (gap.text ++ [d]))
      else (quotedFrom double .none false 0 cs).map (.prepend (gap.text ++ [c]))
    else if c == '\'' then
      if cs.head? == some '\'' then
        (quotedFrom double .none false 1 cs).map (.prepend (gap.text ++ [c]))
      else some ⟨gap.text, cs, false⟩
    else (quotedFrom double .none false 0 cs).map (.prepend (gap.text ++ [c]))

/-- Reads a quoted scalar behind its opening quote. -/
def readQuoted (double : Bool) (t : Text) : Option ScalarRead := quotedFrom double .none false 0 t

end CrossShell.Yaml
