import CrossShell.Invocation
import CrossShell.Special.Pipeline
import CrossShell.Target
import CrossShell.Text.Number
import CrossShell.Text.Quoted

/-!
# Commands that run other commands: `sudo`, `xargs`, `find`

A wrapped command is converted in its turn. How it is done is given by a function `nested`, which
has no answer where commands are nested too deep.

* `convertSudo?`, `convertXargs?`.
* `FindPlan`: what a `find` asks for, read word by word (`planFind?`).
-/
namespace CrossShell

/-- How the command in a wrapper is converted. -/
abbrev Nested := Text → Option Text

/-- `sudo`: the wrapped command, converted and run elevated. -/
def convertSudo? (target : Target) (nested : Nested) (inv : Invocation) : Option Text := do
  let line ← inv.textFrom? (← inv.commandIndex? [])
  let command ← nested line
  return inv.finish ("Start-Process -FilePath " ++ target.executable ++
    " -Verb RunAs -Wait -ArgumentList '-NoProfile', '-Command', " ++ Text.singleQuoted command)

/-- The command that `xargs` runs for an item `$_`: the wrapped one, with the item at its end or in
place of the text that `-I` names. -/
def itemCommand? (inv : Invocation) : Option Text :=
  match inv.commandIndex? ["-I", "-n"] with
  | none => some "echo $_"
  | some index => do
    let command ← inv.textFrom? index
    match inv.optionValue? "-I" with
    | some placeholder => return Text.replace placeholder "$_" command
    | none => return command ++ " $_"

/-- `xargs`: the wrapped command for each item; with `-0` items are split at NUL. -/
def convertXargs? (nested : Nested) (inv : Invocation) : Option Text := do
  let command ← nested (← itemCommand? inv)
  let source : Text :=
    if inv.hasFlag "-0" then
      forEachItem "$_ -split \"`0\"" ++ " | Where-Object " ++ scriptBlock "$_" ++ " | "
    else ""
  return inv.finish (source ++ forEachItem command)

/-! ## `find` -/

/-- What a `find` asks for. -/
structure FindPlan where
  /-- The options of `Get-ChildItem`. -/
  options : List Text := []
  /-- What happens to each file; the last one counts. -/
  action : Option Text := none
  deriving DecidableEq, Repr

/-- Whether a word ends an `-exec` run. -/
def endsExec (word : TaggedToken) : Bool :=
  [";".toList, "\\;", "';'", "\";\"", "+"].contains word.value

/-- A command of `find` with the found file in place of `{}`, quoted or not. -/
def withFoundFile (command : Text) : Text :=
  Text.replace "\x7b\x7d" "$_.FullName" <|
    Text.replace "\"\x7b\x7d\"" "$_.FullName" <|
      Text.replace "'\x7b\x7d'" "$_.FullName" command

/-- The stage that runs the command between `-exec` and its end for each file. -/
def execStage? (nested : Nested) (inv : Invocation) (words : List TaggedToken) : Option Text := do
  let line ← inv.textOf? words
  return forEachItem (← nested (withFoundFile line))

/-- The option of a test and its value. -/
def findOption? (test value : Text) : Option Text :=
  if test = "-name" ∨ test = "-iname" then
    some ("-Filter " ++ Text.singleQuoted (Text.unquote value))
  else if test = "-type" then
    if value = "f" then some "-File" else if value = "d" then some "-Directory" else none
  else if test = "-maxdepth" then
    match Text.toNat32? value with
    | some (n + 1) => some ("-Depth " ++ Text.ofNat n)
    | _ => none
  else none

/-- Reads the words behind the start paths. The first `skip` of them are read already. -/
def planFind? (nested : Nested) (inv : Invocation) :
    (skip : Nat) → FindPlan → List TaggedToken → Option FindPlan
  | _, plan, [] => some plan
  | skip + 1, plan, _ :: ts => planFind? nested inv skip plan ts
  | 0, plan, t :: ts =>
    if t.value = "-print" then planFind? nested inv 0 plan ts
    else if t.value = "-delete" then
      planFind? nested inv 0 { plan with action := some "Remove-Item -Force" } ts
    else if t.value = "-exec" then
      let command := ts.takeWhile (!endsExec ·)
      if command.length = ts.length then none
      else match execStage? nested inv command with
        | none => none
        | some stage =>
          planFind? nested inv (command.length + 1) { plan with action := some stage } ts
    else match ts with
      | [] => none
      | value :: _ =>
        match findOption? t.value value.value with
        | none => none
        | some option =>
          planFind? nested inv 1 { plan with options := plan.options ++ [option] } ts

/-- `find`: the files below the start paths that pass the tests, and what happens to them. -/
def convertFind? (nested : Nested) (inv : Invocation) : Option Text := do
  let roots := inv.words.takeWhile (!·.isFlag)
  let plan ← planFind? nested inv 0 {} (inv.words.dropWhile (!·.isFlag))
  let search := "Get-ChildItem -Path " ++ pathList (roots.map (·.value)) ++ " -Recurse"
  let action := plan.action.getD "Select-Object -ExpandProperty FullName"
  return inv.finish (Text.join " " (search :: plan.options) ++ " | " ++ action)

end CrossShell
