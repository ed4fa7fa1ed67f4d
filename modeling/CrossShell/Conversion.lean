import CrossShell.Line.Chain
import CrossShell.Stage

/-!
# Converting a whole line

A line is cut at its connectors, at `;` and at its pipes. Its stages are converted one by one and
put together again, one space around the operators. For a target without connectors these become
guarded statements, and for the console the line is wrapped in a call of PowerShell.

* `Converter.rebuild`: the line out of its converted stages.
* `Converter.convertLine`: the whole, with the descriptions of what was done. A line in which
  nothing was done comes back as it was.
-/
namespace CrossShell

/-- The result of converting a line. -/
structure Conversion where
  /-- Whether anything was converted. -/
  converted : Bool
  /-- The line as it was. -/
  source : Text
  /-- The line to run. -/
  line : Text
  /-- What was done. -/
  description : Text
  deriving DecidableEq, Repr

/-- A line that stays as it is. -/
def Conversion.unchanged (line : Text) : Conversion := ⟨false, line, line, []⟩

/-- What lines are converted with. -/
structure Converter where
  /-- Whether lines are converted at all. -/
  enabled : Bool
  /-- The shell to write for. -/
  target : Target
  /-- The mappings. -/
  rules : RuleTable
  deriving DecidableEq, Repr

/-- The stages of a line, pipeline by pipeline. -/
def stagesOf (segment : Text) : List (List Text) := (splitSequence segment).map splitPipe

namespace Converter

/-- How its stages are converted. -/
def stageConverter (t : Converter) : StageConverter := ⟨t.rules, t.target⟩

/-- A segment out of its converted stages. -/
def rebuildSegment (t : Converter) : Segment → Text
  | .connector c => " " ++ c.text ++ " "
  | .commands text =>
    Text.join "; " <| (stagesOf text).map fun stages =>
      Text.join " | " (stages.map t.stageConverter.convertStage)

/-- A line out of its converted stages, its connectors as they are. -/
def rebuild (t : Converter) (line : Text) : Text :=
  Text.trim ((splitConnectors line).flatMap t.rebuildSegment)

/-- All stages of a line, in order. -/
def stages (line : Text) : List Text :=
  (splitConnectors line).flatMap fun
    | .connector _ => []
    | .commands text => (stagesOf text).flatten

/-- The description of the rule or mapping for the command of a stage. -/
def describe? (t : Converter) (stage : Text) : Option Text := do
  let inv ← Invocation.ofTagged? stage (tagStage stage)
  match Special.ofName? inv.name with
  | some s => return s.description
  | none => (t.rules.get? inv.name).map (·.description)

/-- Adds the description of a stage that was converted, unless it is there already. -/
def addDescription (t : Converter) (descriptions : List Text) (stage : Text) : List Text :=
  if t.stageConverter.convertStage stage = stage then descriptions
  else match t.describe? stage with
    | some d => if descriptions.contains d then descriptions else descriptions ++ [d]
    | none => descriptions

/-- The descriptions of what was converted in the stages of a line, each once. -/
def stageDescriptions (t : Converter) (line : Text) : List Text :=
  (stages line).foldl t.addDescription []

/-- The line as one quoted argument of a call of PowerShell from the console. A quote inside is
written as two. -/
def wrapForConsole (target : Target) (line : Text) : Text :=
  target.executable ++ " -NoProfile -Command \"" ++ Text.replace "\"" "\"\"" line ++ "\""

/-- The line as the target takes it. -/
def wrap (target : Target) (line : Text) : Text :=
  if target.kind = .console then wrapForConsole target line else line

/-- Converts a line. The console has connectors of its own, so these alone are no reason to
convert a line for it. -/
def convertLine (t : Converter) (command : Text) : Conversion :=
  if !t.enabled then .unchanged command
  else
    let command := Text.trim command
    if command.isEmpty || !t.target.needsConversion then .unchanged command
    else
      let line := t.rebuild command
      let emulated := emulate t.target line
      let descriptions := t.stageDescriptions command ++
        (if emulated ≠ line ∧ t.target.kind = .powerShell then [emulateDescription] else [])
      if descriptions.isEmpty then .unchanged command
      else ⟨true, command, wrap t.target emulated, Text.join "; " descriptions⟩

end Converter

end CrossShell
