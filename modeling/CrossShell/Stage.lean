import CrossShell.Rule.Table
import CrossShell.Special.Counterpart

/-!
# Converting one stage of a pipeline

A stage is converted by the rule of its command, if it has one, and else by its mapping. Where
neither applies the stage stays as it is, character for character.

* `convertStage?`: one stage, given how wrapped commands are converted.
* `convertStageAt`: the same with a limit on how deep wrapped commands may be nested.
* `convertStage`: with the limit `maxDepth`.
-/
namespace CrossShell

/-- How many commands may be wrapped in one another. -/
def maxDepth : Nat := 8

/-- What a stage is converted with. -/
structure StageConverter where
  /-- The mappings. -/
  rules : RuleTable
  /-- The shell to write for. -/
  target : Target
  deriving DecidableEq, Repr

/-- Whether a stage is a group in parentheses or braces. -/
def isGrouped (stage : Text) : Bool :=
  (Text.trim stage).head? == some '(' || (Text.trim stage).head? == some '{'

/-- The counterpart of an invocation: by the rule of its command, if that accepts all its flags, or
by its mapping. -/
def StageConverter.convertInvocation? (r : StageConverter) (nested : Nested) (inv : Invocation) :
    Option Text :=
  match Special.ofName? inv.name with
  | some s => if (s.unsupportedFlags inv).isEmpty then s.counterpart? r.target nested inv else none
  | none => (r.rules.get? inv.name).bind (·.counterpart? inv)

/-- The counterpart of a stage, if there is one. Groups and here-documents are left alone. -/
def StageConverter.convertStage? (r : StageConverter) (nested : Nested) (stage : Text) :
    Option Text :=
  if !r.target.needsConversion || isGrouped stage then none
  else
    let tagged := tagStage stage
    if tagged.any (·.token.isHeredoc) then none
    else (Invocation.ofTagged? stage tagged).bind (r.convertInvocation? nested)

/-- A stage, converted if possible, where wrapped commands may be nested `depth` deep. -/
def StageConverter.convertStageAt (r : StageConverter) : (depth : Nat) → Text → Text
  | 0, stage => (r.convertStage? (fun _ => none) stage).getD stage
  | depth + 1, stage =>
    (r.convertStage? (fun line => some (r.convertStageAt depth line)) stage).getD stage

/-- How a command is converted inside of `depth` more levels of wrapped commands. -/
def StageConverter.nestedAt (r : StageConverter) : (depth : Nat) → Nested
  | 0 => fun _ => none
  | depth + 1 => fun line => some (r.convertStageAt depth line)

/-- A stage, converted if possible. -/
def StageConverter.convertStage (r : StageConverter) (stage : Text) : Text :=
  r.convertStageAt maxDepth stage

/-- A stage is converted with the commands in it one level further in. -/
theorem StageConverter.convertStageAt_eq (r : StageConverter) (depth : Nat) (stage : Text) :
    r.convertStageAt depth stage = (r.convertStage? (r.nestedAt depth) stage).getD stage := by
  cases depth <;> rfl

/-- A stage has a counterpart if it is not left alone and its invocation has one. -/
theorem StageConverter.convertStage?_eq_some_iff {r : StageConverter} {nested : Nested}
    {stage text : Text} : r.convertStage? nested stage = some text ↔
      r.target.needsConversion = true ∧ isGrouped stage = false ∧
        (∀ t ∈ tagStage stage, t.token.isHeredoc = false) ∧
        ∃ inv, Invocation.ofTagged? stage (tagStage stage) = some inv ∧
          r.convertInvocation? nested inv = some text := by
  have hheredoc : (tagStage stage).any (·.token.isHeredoc) = false ↔
      ∀ t ∈ tagStage stage, t.token.isHeredoc = false := by simp
  rw [convertStage?, ← hheredoc, ← Option.bind_eq_some_iff]
  cases r.target.needsConversion <;> cases isGrouped stage <;>
    simp only [Bool.not_true, Bool.not_false, Bool.or_true, Bool.or_false, Bool.false_eq_true,
      if_true, if_false, reduceCtorEq, false_and, true_and]
  cases (tagStage stage).any (·.token.isHeredoc) <;>
    simp only [Bool.true_eq_false, Bool.false_eq_true, if_true, if_false, reduceCtorEq, false_and,
      true_and]

end CrossShell
