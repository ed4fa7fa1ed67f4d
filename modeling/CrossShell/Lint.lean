import CrossShell.Lint.Score
import CrossShell.Conversion

/-!
# Checking a line

Checking goes through the same stages as converting and reports what would be left alone: unknown
commands, and flags that a command does not take. For each it looks for a few near matches.

* `Linter.isKnown`: a command is looked for among the sorted names of all commands (`bisect`).
* `Linter.stageFindings`: the findings of one stage.
* `Linter.commandSuggestions`, `Linter.flagSuggestions`: near matches, best first (`rank`).
-/
namespace CrossShell

/-- The most suggestions for one finding. -/
def maxSuggestions : Nat := 3

/-- What was found in a line. -/
structure Report where
  /-- What is not supported. -/
  unsupported : List Text
  /-- What may have been meant. -/
  suggestions : List Text
  deriving DecidableEq, Repr

/-- Whether nothing was found. -/
def Report.isClean (r : Report) : Bool := r.unsupported.isEmpty

/-- Something that is not supported, as it is reported and as it is named in a suggestion, with its
near matches. -/
structure Finding where
  /-- The text of the report. -/
  entry : Text
  /-- What the suggestion is about. -/
  subject : Text
  /-- The near matches, best first. -/
  similar : List Text
  deriving DecidableEq, Repr

/-- The line that suggests the near matches, if there are any. -/
def Finding.suggestion? (f : Finding) : Option Text :=
  if f.similar.isEmpty then none
  else some (f.subject ++ ": did you mean " ++ Text.join ", " f.similar ++ "?")

/-- The report of some findings. -/
def Report.ofFindings (findings : List Finding) : Report :=
  ⟨findings.map (·.entry), findings.filterMap Finding.suggestion?⟩

/-! ## Names in order -/

/-- Sorted texts without those that equal the one before them. -/
def dropRepeats : List Text → List Text
  | [] => []
  | [t] => [t]
  | s :: t :: ts => if s = t then dropRepeats (t :: ts) else s :: dropRepeats (t :: ts)

/-- The texts in order, each once. -/
def inNameOrder (texts : List Text) : List Text :=
  dropRepeats (texts.mergeSort fun a b => !Text.before b a)

/-- Whether a text is among the `size` sorted ones from place `base` on. They are halved until one
is left. -/
def bisect (sorted : Array Text) (text : Text) (base size : Nat) : Bool :=
  if size ≤ 1 then sorted[base]? == some text
  else
    let middle := base + size / 2
    if sorted[middle]?.any (Text.before text) then bisect sorted text base (size - size / 2)
    else bisect sorted text middle (size - size / 2)
  termination_by size

/-! ## Near matches -/

/-- A candidate with what it is ranked by. -/
structure Ranked where
  /-- How well it fits. -/
  score : Int
  /-- How many characters of the query it has. -/
  shared : Nat
  /-- The candidate. -/
  candidate : Text
  deriving DecidableEq, Repr

/-- Whether a candidate goes before another, or is the same: by score, by shared characters, by
name. -/
def Ranked.le (a b : Ranked) : Bool :=
  if a.score ≠ b.score then b.score < a.score
  else if a.shared ≠ b.shared then b.shared < a.shared
  else !Text.before b.candidate a.candidate

/-- How a candidate ranks for a query. -/
def Ranked.of (score : Text → Text → Int) (query candidate : Text) : Ranked :=
  ⟨score query candidate, query.countP (candidate.contains ·), candidate⟩

/-- The score of a candidate: how well the query fits it, or it the query. -/
def similarity (query candidate : Text) : Int :=
  ((fitScore? candidate query).or (fitScore? query candidate)).getD 0

/-- The best few candidates, each once. All of them are sorted before repeats are dropped. -/
def rank (score : Text → Text → Int) (query : Text) (candidates : List Text) : List Text :=
  let ranked := (candidates.map (Ranked.of score query)).mergeSort Ranked.le
  (dropRepeats (ranked.map (·.candidate))).take maxSuggestions

/-- Whether a known command is close to a name: one is part of the other, or their lengths differ by
at most two bytes. -/
def isCloseCommand (name known : Text) : Bool :=
  known != name &&
    (Text.occursIn name known || Text.occursIn known name ||
      (Text.size known ≤ Text.size name + 2 && Text.size name ≤ Text.size known + 2))

/-- A flag without its dashes. -/
def bareFlag (flag : Text) : Text := flag.dropWhile (· == '-')

/-- Whether an allowed flag is close to a flag: dashes aside, one is part of the other. -/
def isCloseFlag (flag allowed : Text) : Bool :=
  allowed != flag && !(bareFlag allowed).isEmpty &&
    (Text.occursIn (bareFlag flag) (bareFlag allowed) ||
      Text.occursIn (bareFlag allowed) (bareFlag flag))

/-- The flag that a pattern stands for in a suggestion. -/
def FlagPattern.example? : FlagPattern → Option Text
  | exact flag => some flag
  | stem t => some (t.reverse.dropWhile (· == '=')).reverse
  | number => none

/-! ## The check -/

/-- What lines are checked against. -/
structure Linter where
  /-- The mappings. -/
  rules : RuleTable
  /-- How near matches are scored. -/
  score : Text → Text → Int := similarity

namespace Linter

/-- The known commands in order: those with a mapping, and those with a rule of their own. -/
def knownCommands (l : Linter) : Array Text :=
  (inNameOrder (l.rules.names ++ Special.all.map (·.name))).toArray

/-- Whether a command is known. -/
def isKnown (l : Linter) (name : Text) : Bool :=
  bisect l.knownCommands name 0 l.knownCommands.size

/-- The flags that may be suggested for a command. -/
def suggestibleFlags (l : Linter) (command : Text) : List Text :=
  match Special.ofName? command with
  | some s => s.flagPatterns.filterMap FlagPattern.example?
  | none => match l.rules.get? command with
    | some m => m.flags.keys
    | none => []

/-- Known commands that are close to a name, best first. -/
def commandSuggestions (l : Linter) (name : Text) : List Text :=
  if name.isEmpty then []
  else rank l.score name (l.knownCommands.toList.filter (isCloseCommand name))

/-- Flags of a command that are close to a flag, best first. -/
def flagSuggestions (l : Linter) (command flag : Text) : List Text :=
  if (bareFlag flag).isEmpty then []
  else rank l.score flag ((l.suggestibleFlags command).filter (isCloseFlag flag))

/-- The flags of an invocation that its command does not take. -/
def unsupportedFlags (l : Linter) (inv : Invocation) : List Text :=
  match Special.ofName? inv.name with
  | some s => s.unsupportedFlags inv
  | none => match l.rules.get? inv.name with
    | some m => inv.flags.filter (!m.flags.keys.contains ·)
    | none => []

/-- What is found in one stage. A group is not looked into. -/
def stageFindings (l : Linter) (stage : Text) : List Finding :=
  if isGrouped stage then []
  else match Invocation.ofTagged? stage (tagStage stage) with
    | none => []
    | some inv =>
      if l.isKnown inv.name then
        (l.unsupportedFlags inv).map fun flag =>
          let entry := inv.name ++ " " ++ flag
          ⟨entry, entry, l.flagSuggestions inv.name flag⟩
      else [⟨Text.trim stage, inv.name, l.commandSuggestions inv.name⟩]

/-- What is found in a line: segment by segment, piece by piece, stage by stage. -/
def lint (l : Linter) (line : Text) : Report :=
  .ofFindings <| (splitConnectors line).flatMap fun
    | .connector _ => []
    | .commands text => (splitSequence text).flatMap fun piece =>
      (splitPipe piece).flatMap l.stageFindings

end Linter

end CrossShell
