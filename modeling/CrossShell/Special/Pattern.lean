import CrossShell.Invocation
import CrossShell.Special.Pipeline
import CrossShell.Target
import CrossShell.Text.Quoted

/-!
# Patterns: `grep`

Basic and extended patterns write their operators the other way round: of `( ) { } + ? |`, the basic
form takes the bare character literally and the one behind a backslash as the operator.

* `extendedPattern`: a basic pattern in the extended form.
* `literalPattern`: a pattern that matches a text literally.
* `convertGrep?`: `grep` as `Select-String`.
-/
namespace CrossShell

/-- The characters whose bare and protected forms change places. -/
def isSwappedOperator (c : Char) : Bool := c ∈ ['(', ')', '{', '}', '+', '?', '|']

/-- A basic pattern in the extended form. -/
def extendedPattern : Text → Text
  | [] => []
  | ['\\'] => ['\\', '\\']
  | '\\' :: c :: cs =>
    if isSwappedOperator c then c :: extendedPattern cs else '\\' :: c :: extendedPattern cs
  | c :: cs =>
    if isSwappedOperator c then '\\' :: c :: extendedPattern cs else c :: extendedPattern cs

/-- The characters that mean something in a pattern. -/
def isPatternChar (c : Char) : Bool := "\\.+*?()|[]\x7b\x7d^$#&-~".toList.contains c

/-- A pattern that matches just the text. -/
def literalPattern (t : Text) : Text :=
  t.flatMap fun c => if isPatternChar c then ['\\', c] else [c]

/-- The script or pattern of an invocation and its files: the value of `-e`, or else the first
word. -/
def scriptAndFiles? (inv : Invocation) : Option (Text × List Text) :=
  match inv.optionValue? "-e", inv.positionals ["-e"] with
  | some script, files => some (script, files)
  | none, first :: files => some (first, files)
  | none, [] => none

/-- The pattern of `grep` in the form that `Select-String` reads. -/
def searchPattern (inv : Invocation) (pattern : Text) : Text :=
  if inv.hasShort 'w' then
    "\\b" ++ (if inv.hasShort 'F' then literalPattern pattern else pattern) ++ "\\b"
  else if inv.hasShort 'F' || inv.hasShort 'E' then pattern
  else extendedPattern pattern

/-- Whether `grep` searches a tree. -/
def searchesTree (inv : Invocation) : Bool := inv.hasShort 'r' || inv.hasShort 'R'

/-- Whether matching lines are wanted as plain text. -/
def wantsRawLines (inv : Invocation) (paths : List Text) : Bool :=
  !searchesTree inv && paths.length ≤ 1 && !inv.hasShort 'n' && !inv.hasShort 'l' &&
    !inv.hasShort 'c'

/-- The arguments of `Select-String`. -/
def searchArguments (target : Target) (inv : Invocation) (pattern : Text) (paths : List Text) :
    List Text :=
  ["-Pattern " ++ Text.singleQuoted (searchPattern inv pattern)] ++
    (if inv.hasShort 'i' then [] else ["-CaseSensitive".toList]) ++
    (if inv.hasShort 'v' then ["-NotMatch".toList] else []) ++
    (if inv.hasShort 'F' && !inv.hasShort 'w' then ["-SimpleMatch".toList] else []) ++
    (if inv.hasShort 'l' then ["-List".toList] else []) ++
    (if target.hasRawSelectString && wantsRawLines inv paths then ["-Raw".toList] else [])

/-- `grep`: lines that match, names of files, or a count. -/
def convertGrep? (target : Target) (inv : Invocation) : Option Text := do
  let (script, paths) ← scriptAndFiles? inv
  let search :=
    "Select-String " ++ Text.join " " (searchArguments target inv (Text.unquote script) paths)
  let body :=
    if searchesTree inv then
      "Get-ChildItem -Path " ++ pathList paths ++ " -Recurse -File | " ++ search
    else if paths.isEmpty then search
    else search ++ " -Path " ++ commaList paths
  let result : Text :=
    if inv.hasShort 'l' then " | Select-Object -ExpandProperty Path"
    else if inv.hasShort 'c' then " | Measure-Object | Select-Object -ExpandProperty Count"
    else ""
  return inv.finish (body ++ result)

end CrossShell
