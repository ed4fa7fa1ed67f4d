import CrossShell.Proofs.Stage.PlainCommand
import CrossShell.Proofs.Text.Literal
import Mathlib.Logic.Function.Iterate

/-!
# Commands under `sudo`

A command under `sudo` is converted one level further in and handed to a PowerShell that is started
elevated. Eight levels are converted; what is wrapped deeper stays as it is written, inside of the
eighth.

* `elevated`: the call that starts a command elevated.
* `PlainCommand.convertStageAt_underSudo`: one `sudo` in front of a command.
* `PlainCommand.convertStage_sudos`: any number of them.
-/

namespace CrossShell

/-- A PowerShell literal of a text: in single quotes, those of the text doubled. -/
def psLiteral (t : Text) : Text :=
  "'" ++ (t.flatMap fun c => if c = '\'' then ['\'', '\''] else [c]) ++ "'"

/-- The call that starts a command elevated and waits for it. -/
def elevated (target : Target) (command : Text) : Text :=
  "Start-Process -FilePath " ++ target.executable ++
    " -Verb RunAs -Wait -ArgumentList '-NoProfile', '-Command', " ++ psLiteral command

theorem singleQuoted_eq (t : Text) : Text.singleQuoted t = psLiteral t :=
  Text.singleQuoted_eq_double t

/-- The wrapped command of `sudo`, converted, is started elevated. -/
theorem convertSudo?_eq (target : Target) (nested : Nested) (inv : Invocation) :
    convertSudo? target nested inv =
      (inv.commandIndex? []).bind fun index => (inv.textFrom? index).bind fun line =>
        (nested line).bind fun command => some (inv.finish (elevated target command)) := by
  have helevated : elevated target = fun command => "Start-Process -FilePath " ++
      target.executable ++ " -Verb RunAs -Wait -ArgumentList '-NoProfile', '-Command', " ++
      Text.singleQuoted command := by
    funext command
    rw [singleQuoted_eq]
    rfl
  rw [helevated]
  rfl

/-- The command word `sudo`. -/
def sudoWord : PlainWord := ⟨"sudo".toList, by decide, by decide⟩

namespace PlainCommand

variable (s : PlainCommand)

/-- A command under `sudo`. -/
def underSudo : PlainCommand := ⟨sudoWord, s.name :: s.arguments, by decide⟩

theorem text_underSudo : s.underSudo.text = "sudo ".toList ++ s.text :=
  wordsText_cons sudoWord (List.cons_ne_nil s.name s.arguments)

/-- The first word under `sudo` is no flag, so it is the command that is wrapped. -/
theorem commandIndex?_underSudo (stage : Text) :
    Invocation.commandIndex? ⟨"sudo", stage, s.underSudo.argumentTokens, []⟩ [] = some 0 := by
  obtain ⟨hredirect, hconnector, -⟩ := s.name.inert 5
  have hshape : (bare s.name.text 5).isFlagShaped = false := by
    have hhead : (s.name.text.head? == some '-') = false := by simpa using s.head_name
    simp [Token.isFlagShaped, bare, hhead]
  have hflag : (tagBehind (bare s.name.text 5)).isFlag = false := by
    simp [tagBehind, TaggedToken.isFlag, Token.role, hredirect, hconnector, hshape]
  have htokens : s.underSudo.argumentTokens = tagBehind (bare s.name.text 5) ::
      (wordTokensFrom (5 + (Text.size s.name.text + 1)) s.arguments).map tagBehind := rfl
  simp [Invocation.commandIndex?, htokens, Invocation.commandIn?, hflag]

/-- The text from there on is the wrapped command as it was written. -/
theorem textFrom?_underSudo :
    Invocation.textFrom? ⟨"sudo", s.underSudo.text, s.underSudo.argumentTokens, []⟩ 0 =
      some s.text := by
  have hhead : s.underSudo.argumentTokens.head? = some (tagBehind (bare s.name.text 5)) := rfl
  obtain ⟨last, hlast⟩ : ∃ t, (wordTokensFrom 5 (s.name :: s.arguments)).getLast? = some t :=
    ⟨_, List.getLast?_eq_some_getLast (by simp [wordTokensFrom])⟩
  have hend : s.underSudo.argumentTokens.getLast? = some (tagBehind last) := by
    show ((wordTokensFrom 5 (s.name :: s.arguments)).map tagBehind).getLast? = _
    rw [List.getLast?_map, hlast]
    rfl
  have hstart : (tagBehind (bare s.name.text 5)).token.start = Text.size "sudo ".toList := rfl
  have hstop : (tagBehind last).token.stop = Text.size "sudo ".toList + Text.size s.text :=
    stop_getLast_wordTokensFrom hlast
  have hslice := Text.slice_append "sudo ".toList s.text []
  rw [List.append_nil, ← text_underSudo] at hslice
  simp only [Invocation.textFrom?, Invocation.textOf?, List.drop_zero, hhead, hend, hstart, hstop,
    hslice]

theorem convertSudo?_underSudo (target : Target) (nested : Nested) :
    convertSudo? target nested ⟨"sudo", s.underSudo.text, s.underSudo.argumentTokens, []⟩ =
      (nested s.text).map (elevated target) := by
  rw [convertSudo?_eq, commandIndex?_underSudo, Option.bind_some, textFrom?_underSudo,
    Option.bind_some]
  cases nested s.text <;> rfl

/-- **One `sudo`.** The command behind it is converted with one level less and started elevated;
where no level is left, both stay as they are. -/
theorem convertStageAt_underSudo {r : StageConverter} (h : r.target.needsConversion = true)
    (depth : Nat) : r.convertStageAt depth s.underSudo.text =
      match depth with
      | 0 => s.underSudo.text
      | depth + 1 => elevated r.target (r.convertStageAt depth s.text) := by
  have hspecial : Special.ofName? "sudo" = some .superuser := by decide
  have hflags : (Special.unsupportedFlags .superuser
      ⟨"sudo", s.underSudo.text, s.underSudo.argumentTokens, []⟩).isEmpty = true := by
    simp only [Special.unsupportedFlags, Special.ownFlags, Special.scope, commandIndex?_underSudo,
      Option.getD_some, List.take_zero]
    rfl
  have hconvert (nested : Nested) : r.convertStage? nested s.underSudo.text =
      (nested s.text).map (elevated r.target) := by
    rw [s.underSudo.convertStage?_text h, ← s.convertSudo?_underSudo]
    show r.convertInvocation? nested ⟨"sudo", s.underSudo.text, s.underSudo.argumentTokens, []⟩ = _
    rw [StageConverter.convertInvocation?, hspecial]
    simp only [hflags, if_true]
    rfl
  rw [StageConverter.convertStageAt_eq, hconvert]
  cases depth <;> rfl

/-! ## Any number of levels -/

theorem text_iterate_underSudo (n : Nat) :
    (underSudo^[n] s).text = (List.replicate n "sudo ".toList).flatten ++ s.text := by
  induction n with
  | zero => rfl
  | succ n ih =>
    rw [Function.iterate_succ_apply', text_underSudo, ih, List.replicate_succ, List.flatten_cons,
      List.append_assoc]

/-- As many levels are converted as are left, and the rest stays as it is. -/
theorem convertStageAt_iterate_underSudo {r : StageConverter} (h : r.target.needsConversion = true)
    (n depth : Nat) : r.convertStageAt depth (underSudo^[n] s).text =
      if n ≤ depth then (elevated r.target)^[n] (r.convertStageAt (depth - n) s.text)
      else (elevated r.target)^[depth] (underSudo^[n - depth] s).text := by
  induction n generalizing depth with
  | zero => simp
  | succ n ih =>
    rw [Function.iterate_succ_apply', convertStageAt_underSudo _ h]
    cases depth with
    | zero => rw [if_neg (by omega), Nat.sub_zero, Function.iterate_succ_apply']; rfl
    | succ depth =>
      simp only [ih, Nat.succ_le_succ_iff, Nat.add_sub_add_right, Function.iterate_succ_apply']
      split <;> rfl

/-- **Eight levels of `sudo`.** For every target that needs conversion and every table, a command of
plain words under `n` times `sudo` becomes `n` calls around its conversion with `8 - n` levels left,
if `n` is at most eight. Under more, it becomes eight calls around the rest, as it was written. -/
theorem convertStage_sudos (r : StageConverter) (h : r.target.needsConversion = true) (n : Nat) :
    r.convertStage ((List.replicate n "sudo ".toList).flatten ++ s.text) =
      if n ≤ 8 then (elevated r.target)^[n] (r.convertStageAt (8 - n) s.text)
      else (elevated r.target)^[8] ((List.replicate (n - 8) "sudo ".toList).flatten ++ s.text) := by
  rw [← text_iterate_underSudo, ← text_iterate_underSudo]
  exact s.convertStageAt_iterate_underSudo h n 8

end PlainCommand

/-- A command whose name and arguments are plain. -/
def removeCommand : PlainCommand :=
  ⟨⟨"rm".toList, by decide, by decide⟩,
    [⟨"-r".toList, by decide, by decide⟩, ⟨"/opt/x".toList, by decide, by decide⟩], by decide⟩

/-- Two levels are converted, the command inside too; of nine levels the last one is not. -/
theorem convertStage_sudos_removeCommand :
    let r : StageConverter := ⟨.builtin, .powerShell (some 7)⟩
    removeCommand.text = "rm -r /opt/x".toList ∧ r.target.needsConversion = true ∧
      r.convertStage "sudo sudo rm -r /opt/x".toList =
        elevated r.target (elevated r.target "Remove-Item -Recurse /opt/x".toList) ∧
      r.convertStage ((List.replicate 9 "sudo ".toList).flatten ++ removeCommand.text) =
        (elevated r.target)^[8] "sudo rm -r /opt/x".toList := by
  intro r
  have htwo := removeCommand.convertStage_sudos r rfl 2
  have hnine := removeCommand.convertStage_sudos r rfl 9
  have hinside : r.convertStageAt 6 removeCommand.text = "Remove-Item -Recurse /opt/x".toList := by
    decide +kernel
  refine ⟨by decide +kernel, rfl, ?_, hnine⟩
  rw [if_pos (by decide), hinside] at htwo
  exact htwo

end CrossShell
