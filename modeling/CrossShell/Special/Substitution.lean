import CrossShell.Special.Lines
import CrossShell.Special.Pattern
import CrossShell.Text.Blank

/-!
# Scripts of `sed`

Two kinds of scripts are converted: one substitution, and under `-n` the printing of one line or of
a range of lines.

* `splitEscaped`: the parts of `s/a/b/g`. A delimiter behind a backslash is part of the text.
* `replacementText`: the replacement, in which `&` and `\1` refer to the match.
* `printSelection?`: `5p`, `2,4p`, `2,$p`, `$p`.
-/
namespace CrossShell

/-- Puts a character in front of the first part. -/
def consFirst (c : Char) : List Text → List Text
  | [] => [[c]]
  | part :: parts => (c :: part) :: parts

/-- The parts between the delimiters that do not stand behind a backslash. A protected delimiter
loses its backslash, any other pair stays. -/
def splitEscaped (delimiter : Char) : Text → List Text
  | [] => [[]]
  | ['\\'] => [['\\']]
  | '\\' :: c :: cs =>
    if c = delimiter then consFirst c (splitEscaped delimiter cs)
    else consFirst '\\' (consFirst c (splitEscaped delimiter cs))
  | c :: cs =>
    if c = delimiter then [] :: splitEscaped delimiter cs
    else consFirst c (splitEscaped delimiter cs)

/-- A reference to a group of the match. -/
def groupReference (digit : Char) : Text := "$\x7b" ++ [digit] ++ "\x7d"

/-- A replacement in the form that `Replace` reads: groups by number, `$` written twice. -/
def replacementText : Text → Text
  | [] => []
  | ['\\'] => ['\\']
  | '\\' :: c :: cs =>
    if c.isDigit then groupReference c ++ replacementText cs else c :: replacementText cs
  | c :: cs =>
    if c = '&' then groupReference '0' ++ replacementText cs
    else if c = '$' then '$' :: '$' :: replacementText cs
    else c :: replacementText cs

/-- A substitution `s/pattern/replacement/flags`. -/
structure Substitution where
  /-- The pattern. -/
  pattern : Text
  /-- The replacement. -/
  replacement : Text
  /-- Whether every match of a line is replaced. -/
  everywhere : Bool
  /-- Whether case is ignored. -/
  ignoresCase : Bool
  deriving DecidableEq, Repr

namespace Substitution

/-- Whether a character may delimit the parts of a substitution. -/
def isDelimiter (c : Char) : Bool :=
  !(Text.isAlphanumeric c || Text.isBlank c || c == '\\')

/-- The substitution that a script writes. -/
def ofScript? : Text → Option Substitution
  | 's' :: delimiter :: rest =>
    if isDelimiter delimiter then
      match splitEscaped delimiter rest with
      | [pattern, replacement, flags] =>
        if flags.all fun c => c == 'g' || c == 'i' || c == 'I' then
          some ⟨pattern, replacement, flags.contains 'g', flags.contains 'i' || flags.contains 'I'⟩
        else none
      | _ => none
    else none
  | _ => none

/-- The stage that substitutes in each line. -/
def text (s : Substitution) (extended : Bool) : Text :=
  let pattern := Text.singleQuoted (if extended then s.pattern else extendedPattern s.pattern)
  let replacement := Text.singleQuoted (replacementText s.replacement)
  forEachItem <|
    match s.everywhere, s.ignoresCase with
    | true, false => "$_ -creplace " ++ pattern ++ ", " ++ replacement
    | true, true => "$_ -replace " ++ pattern ++ ", " ++ replacement
    | false, false => "([regex]" ++ pattern ++ ").Replace($_, " ++ replacement ++ ", 1)"
    | false, true =>
      "[regex]::new(" ++ pattern ++ ", 'IgnoreCase').Replace($_, " ++ replacement ++ ", 1)"

end Substitution

/-- A run of digits, or `$` for the last line. -/
def isAddress (t : Text) : Bool := t == "$" || (!t.isEmpty && t.all Char.isDigit)

/-- The lines that one address selects. -/
def oneLine? (address : Text) : Option Selection :=
  if address = "$" then some (.last 1) else (Text.toIndex64? address).map .index

/-- The lines between two addresses. -/
def lineRange? (start stop : Text) : Option Selection := do
  let i ← Text.toIndex64? start
  if stop = "$" then return .skip i
  let j ← Text.toIndex64? stop
  if j < i then none else return .range i j

/-- The lines that a script `5p`, `2,4p`, `2,$p` or `$p` prints. -/
def printSelection? (script : Text) : Option Selection :=
  match Text.dropBack? (Text.trim script) "p" with
  | none => none
  | some addresses =>
    match Text.splitOnce ',' addresses with
    | none => if isAddress addresses then oneLine? addresses else none
    | some (start, stop) =>
      if isAddress start && isAddress stop then lineRange? start stop else none

/-- The stage of a script: under `-n` it selects lines, else it substitutes. -/
def scriptStage? (inv : Invocation) (script : Text) : Option Text :=
  if inv.hasShort 'n' then (printSelection? script).map Selection.text
  else (Substitution.ofScript? script).map (·.text (inv.hasShort 'E' || inv.hasShort 'r'))

/-- `sed`: one script, on files, on the pipeline, or with `-i` in place. -/
def convertSed? (inv : Invocation) : Option Text := do
  let (script, files) ← scriptAndFiles? inv
  let body ← scriptStage? inv (Text.unquote script)
  if inv.hasShort 'i' then
    match files with
    | [file] =>
      return inv.finish ("(Get-Content " ++ file ++ ") | " ++ body ++ " | Set-Content " ++ file)
    | _ => none
  else return inv.finish (withInput files body)

end CrossShell
