import CrossShell.Invocation
import CrossShell.Special.Pipeline
import CrossShell.Text.Quoted

/-!
# Sets of characters: `tr`

* `expandSet?`: the characters of a set such as `a-z`, `[:digit:]` or `\n\t`.
* `characterClass`: a pattern that matches one character out of several.
* `convertTr?`: deletion, change of case, and replacement character by character.
-/
namespace CrossShell

/-- The number of characters up to which a set takes in single characters and ranges. -/
def maxSet : Nat := 1024

/-- The letters a to z. -/
def lowerLetters : Text := "abcdefghijklmnopqrstuvwxyz"

/-- The letters A to Z. -/
def upperLetters : Text := "ABCDEFGHIJKLMNOPQRSTUVWXYZ"

/-- The named classes and their members. -/
def namedClasses : List (Text × Text) :=
  [("[:lower:]", lowerLetters), ("[:upper:]", upperLetters), ("[:digit:]", "0123456789"),
   ("[:space:]", " \t\n\r")]

/-- An element at the start of a set. -/
inductive SetElement where
  /-- A named class. -/
  | named (members : Text)
  /-- A single character. -/
  | single (c : Char)
  /-- The characters between two. -/
  | range (first last : Char)
  deriving DecidableEq, Repr

/-- The character that a backslash and the character behind it stand for. -/
def escapedChar : Char → Char
  | 'n' => '\n'
  | 't' => '\t'
  | c => c

/-- The element that starts with the character `c`, of which the spelling took `taken` characters,
and its length. A dash and one more character make a range. -/
def rangeOrSingle (c : Char) (taken : Nat) : Text → SetElement × Nat
  | '-' :: last :: _ => (.range c last, taken + 2)
  | _ => (.single c, taken)

/-- The element at the start of `c :: cs` and its length. -/
def setElement (c : Char) (cs : Text) : SetElement × Nat :=
  match namedClasses.find? (·.1.isPrefixOf (c :: cs)) with
  | some (name, members) => (.named members, name.length)
  | none =>
    match c, cs with
    | '\\', d :: ds => rangeOrSingle (escapedChar d) 2 ds
    | c, cs => rangeOrSingle c 1 cs

/-- The characters of an element, if there is room for them. Only a named class is taken in
whatever the room. -/
def SetElement.members? (room : Nat) : SetElement → Option Text
  | named members => some members
  | single c => if room = 0 then none else some [c]
  | range first last =>
    if last.toNat < first.toNat ∨ room ≤ last.toNat - first.toNat then none
    else some ((List.range' first.toNat (last.toNat + 1 - first.toNat)).map Char.ofNat)

/-- The characters of a set, of which the first `skip` characters belong to an element already
read and `count` characters are expanded before. -/
def expandFrom? : (count skip : Nat) → Text → Option Text
  | _, _, [] => some []
  | count, skip + 1, _ :: cs => expandFrom? count skip cs
  | count, 0, c :: cs =>
    let (element, length) := setElement c cs
    match element.members? (maxSet - count) with
    | none => none
    | some members =>
      (expandFrom? (count + members.length) (length - 1) cs).map (members ++ ·)

/-- The characters of a set. -/
def expandSet? (set : Text) : Option Text := expandFrom? 0 0 set

/-- A character inside a class of a pattern. -/
def classMember (c : Char) : Text :=
  match c with
  | '\n' => "\\n"
  | '\t' => "\\t"
  | '\r' => "\\r"
  | c => if c ∈ ['\\', ']', '[', '^', '-'] then ['\\', c] else [c]

/-- A pattern that matches one of some characters. -/
def characterClass (chars : Text) : Text := "[" ++ chars.flatMap classMember ++ "]"

/-- Deletes the characters of a set. -/
def deleteChars? (set : Text) : Option Text :=
  if set.isEmpty then none
  else some (forEachItem ("$_ -creplace " ++ Text.singleQuoted (characterClass set) ++ ", ''"))

/-- Replaces each character of a set by the one at the same place of another. -/
def exchangeChars? (source dest : Text) : Option Text :=
  if source.isEmpty ∨ source.length ≠ dest.length then none
  else if source = lowerLetters ∧ dest = upperLetters then some (forEachItem "$_.ToUpper()")
  else if source = upperLetters ∧ dest = lowerLetters then some (forEachItem "$_.ToLower()")
  else if source.length = 1 then
    some (forEachItem
      ("$_.Replace(" ++ Text.singleQuoted source ++ ", " ++ Text.singleQuoted dest ++ ")"))
  else
    some (forEachItem
      ("[regex]::Replace($_, " ++ Text.singleQuoted (characterClass source) ++ ", " ++
        scriptBlock ("param($m) " ++ Text.singleQuoted dest ++ "[" ++ Text.singleQuoted source ++
          ".IndexOf($m.Value)]") ++ ")"))

/-- `tr`: deletes the characters of one set, or exchanges those of two. -/
def convertTr? (inv : Invocation) : Option Text := do
  let sets ← (inv.positionals []).mapM fun word => expandSet? (Text.unquote word)
  let body ← match inv.hasFlag "-d", sets with
    | true, [set] => deleteChars? set
    | false, [source, dest] => exchangeChars? source dest
    | _, _ => none
  return inv.finish body

end CrossShell
