import CrossShell.Invocation
import CrossShell.Special.Pipeline
import CrossShell.Text.Blank
import CrossShell.Text.Number
import CrossShell.Text.Quoted

/-!
# Fields of a line: `awk` and `cut`

* `printedField?`: the field of the program `{ print $N }`, the only one that is converted.
* `fieldIndices?`: a list of fields such as `1,3-5` as indices from 0, of which there are at most
  `maxFields`.
* `splitExpression`: the line split at a separator.
-/
namespace CrossShell

/-- The most fields that a list may name, repetitions counted. -/
def maxFields : Nat := 256

/-- The line split at a separator: at a tab, at a character, or at a text. -/
def splitExpression (separator : Text) : Text :=
  if separator = "\\t" ∨ separator = "\t" then "$_.Split(\"`t\")"
  else if separator.length = 1 then "$_.Split(" ++ Text.singleQuoted separator ++ ")"
  else "($_ -split " ++ Text.singleQuoted separator ++ ")"

/-- The text behind at least one blank and any further blanks. -/
def dropBlanks? : Text → Option Text
  | [] => none
  | c :: cs => if Text.isBlank c then some (Text.trimFront cs) else none

/-- What stands behind the field number up to the end: at most one `;` between blanks, and the
closing brace. -/
def closesProgram (t : Text) : Bool :=
  match Text.trimFront t with
  | ';' :: rest => Text.trimFront rest == ['}']
  | rest => rest == ['}']

/-- The field number that a program `{ print $N }` prints, as written. -/
def printedField? (program : Text) : Option Text := do
  let body ← Text.dropFront? program "\x7b"
  let rest ← dropBlanks? (← Text.dropFront? (Text.trimFront body) "print")
  let field ← Text.dropFront? rest "$"
  if closesProgram (field.dropWhile Char.isDigit) then some (field.takeWhile Char.isDigit)
  else none

/-- The field with a number from 1, or the whole line for 0. -/
def fieldExpression (separator : Option Text) : Nat → Text
  | 0 => "$_"
  | n + 1 =>
    let parts := match separator with
      | none => "($_.Trim() -split '\\s+')"
      | some s => splitExpression s
    parts ++ "[" ++ Text.ofNat n ++ "]"

/-- `awk`: one field of each line. -/
def convertAwk? (inv : Invocation) : Option Text :=
  match inv.positionals ["-F"] with
  | [] => none
  | program :: files => do
    let digits ← printedField? (Text.trim (Text.unquote program))
    let field ← Text.toNat64? digits
    let separator := (inv.optionValue? "-F").map Text.unquote
    return inv.finish (withInput files (forEachItem (fieldExpression separator field)))

/-- The indices of one part of a field list, if there is room for them. -/
def partIndices? (room : Nat) (part : Text) : Option (List Nat) :=
  match Text.splitOnce '-' part with
  | some (start, stop) => do
    let i ← Text.toIndex64? start
    let j ← Text.toIndex64? stop
    if j < i ∨ room ≤ j - i then none else return List.range' i (j + 1 - i)
  | none => do
    let i ← Text.toIndex64? part
    if room = 0 then none else return [i]

/-- The indices of the parts of a field list, if there is room for them. -/
def indicesOf? : (room : Nat) → List Text → Option (List Nat)
  | _, [] => some []
  | room, part :: parts => do
    let indices ← partIndices? room part
    return indices ++ (← indicesOf? (room - indices.length) parts)

/-- The indices of a field list such as `2`, `1,3` or `2-4`. -/
def fieldIndices? (list : Text) : Option (List Nat) :=
  indicesOf? maxFields (Text.splitOn ',' list)

/-- The fields with some indices, put together with the delimiter again. -/
def fieldsExpression (delimiter : Text) (indices : List Nat) : Text :=
  let split := splitExpression delimiter
  match indices with
  | [i] => split ++ "[" ++ Text.ofNat i ++ "]"
  | many =>
    let picks := many.map fun i => "$f[" ++ Text.ofNat i ++ "]"
    let joiner : Text := if split.contains '\x60' then "\"`t\"" else Text.singleQuoted delimiter
    "$f = " ++ split ++ "; (" ++ commaList picks ++ ") -join " ++ joiner

/-- `cut`: fields of each line, by default between tabs. -/
def convertCut? (inv : Invocation) : Option Text := do
  let indices ← fieldIndices? (Text.unquote (← inv.optionValue? "-f"))
  let delimiter := ((inv.optionValue? "-d").map Text.unquote).getD "\t"
  if delimiter ≠ "\\t" ∧ delimiter.length ≠ 1 then none
  else return inv.finish (withInput (inv.positionals ["-d", "-f"])
    (forEachItem (fieldsExpression delimiter indices)))

end CrossShell
