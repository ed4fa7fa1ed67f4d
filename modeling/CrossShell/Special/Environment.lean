import CrossShell.Invocation
import CrossShell.Text.Letter
import CrossShell.Text.Quoted

/-!
# Environment variables: `export` and `unset`

* `envReference?`: a reference `$NAME` or `${NAME}` at the start of a text.
* `envValue?`: the right side of an assignment. Single quotes keep it literal; otherwise references
  become reads of the environment.
-/
namespace CrossShell

/-- Whether a character may start a name. -/
def isNameStart (c : Char) : Bool := c.isAlpha || c == '_'

/-- Whether a text is a name of a variable: ASCII letters, digits and `_`, no digit first. -/
def isIdentifier : Text → Bool
  | [] => false
  | c :: cs => isNameStart c && cs.all fun c => c.isAlphanum || c == '_'

/-- The name at the start of a text, if there is one. It may go on with the letters, marks and
digits of any script. -/
def leadingName? : Text → Option Text
  | [] => none
  | c :: cs => if isNameStart c then some (c :: cs.takeWhile Text.isWordChar) else none

/-- The name of the variable that a text behind `$` refers to, and how many characters the
reference takes. -/
def envReference? (t : Text) : Option (Text × Nat) :=
  match t with
  | '{' :: rest => do
    let name ← leadingName? rest
    if (rest.drop name.length).head? = some '}' then return (name, name.length + 2) else none
  | rest => (leadingName? rest).map fun name => (name, name.length)

/-- A read of an environment variable. -/
def envRead (name : Text) : Text := "$\x7benv:" ++ name ++ "\x7d"

/-- A text with its references as reads of the environment. The first `skip` characters belong to
a reference already written. -/
def expandReferences : (skip : Nat) → Text → Text
  | _, [] => []
  | skip + 1, _ :: cs => expandReferences skip cs
  | 0, c :: cs =>
    if c = '$' then
      match envReference? cs with
      | some (name, length) => envRead name ++ expandReferences length cs
      | none => c :: expandReferences 0 cs
    else c :: expandReferences 0 cs

/-- The right side of an assignment as a PowerShell string, unless it runs a command. -/
def envValue? (raw : Text) : Option Text :=
  let value := Text.unquote raw
  if raw.head? = some '\'' ∨ !value.contains '$' then some (Text.singleQuoted value)
  else if Text.occursIn "$(" value || value.contains '\x60' then none
  else some ("\"" ++ Text.replace "\"" "`\"" (expandReferences 0 value) ++ "\"")

/-- One assignment `NAME=value`. -/
def assignment? (word : Text) : Option Text := do
  let (name, raw) ← Text.splitOnce '=' word
  if isIdentifier name then return "$env:" ++ name ++ " = " ++ (← envValue? raw) else none

/-- `export`: assigns variables, or with `-p` alone lists them. -/
def convertExport? (inv : Invocation) : Option Text :=
  if inv.hasFlag "-p" then
    if inv.words.length = 1 then some (inv.finish "Get-ChildItem Env:") else none
  else if (inv.positionals []).isEmpty then none
  else do
    let statements ← (inv.positionals []).mapM assignment?
    return inv.finish (Text.join "; " statements)

/-- `unset`: removes variables. -/
def convertUnset? (inv : Invocation) : Option Text :=
  let names := inv.positionals []
  if names.isEmpty || !names.all isIdentifier then none
  else some <| inv.finish <| Text.join "; " <| names.map fun name =>
    "Remove-Item Env:" ++ name ++ " -ErrorAction SilentlyContinue"

end CrossShell
