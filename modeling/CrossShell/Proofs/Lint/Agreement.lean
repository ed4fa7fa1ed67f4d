import CrossShell.Proofs.Lint.Known
import CrossShell.Proofs.Lint.Walk
import CrossShell.Proofs.Rule.Registration

/-!
# Check and conversion agree

The check reports a stage whose command is unknown or does not take one of its flags. Such a stage
is never converted, although the two decide it differently: the check looks for names among sorted
ones and collects the flags that are not taken, the conversion looks into the index of the table and
gives up at the first flag without a counterpart.

* `Supported`: the command of an invocation is known, and takes the flags that are its own.
* `Linter.stageFindings_eq_nil_iff`: the check finds nothing in a supported invocation.
* `StageConverter.supported_of_convertInvocation?`: only a supported invocation is converted.
* `record`: the action that records the stages of a loop.
* `lint_agrees_with_conversion`: check and conversion, for every table of a user.
-/

namespace CrossShell

/-- The command has a rule of its own that accepts the flags that belong to it, or else a mapping
that has all flags. -/
def Supported (rules : RuleTable) (inv : Invocation) : Prop :=
  (∃ s, Special.ofName? inv.name = some s ∧ ∀ flag ∈ s.ownFlags inv, s.acceptsFlag flag = true) ∨
    Special.ofName? inv.name = none ∧
      ∃ m, rules.get? inv.name = some m ∧ ∀ flag ∈ inv.flags, flag ∈ m.flags.keys

instance (rules : RuleTable) (inv : Invocation) : Decidable (Supported rules inv) :=
  match hspecial : Special.ofName? inv.name with
  | some s => decidable_of_iff (∀ flag ∈ s.ownFlags inv, s.acceptsFlag flag = true)
      (by simp [Supported, hspecial])
  | none =>
    match hget : rules.get? inv.name with
    | some m => decidable_of_iff (∀ flag ∈ inv.flags, flag ∈ m.flags.keys)
        (by simp [Supported, hspecial, hget])
    | none => isFalse (by simp [Supported, hspecial, hget])

/-! ## The check -/

namespace Linter

variable {l : Linter} {stage : Text} {inv : Invocation}

theorem unsupportedFlags_eq_nil_iff (hknown : l.isKnown inv.name = true) (h : l.rules.Indexed) :
    l.unsupportedFlags inv = [] ↔ Supported l.rules inv := by
  rw [isKnown_iff, ← h.contains_iff, h.contains_eq, Option.isSome_iff_exists,
    Option.isSome_iff_exists] at hknown
  cases hspecial : Special.ofName? inv.name with
  | some s =>
    simp [unsupportedFlags, Supported, hspecial, Special.unsupportedFlags]
  | none =>
    obtain ⟨m, hm⟩ : ∃ m, l.rules.get? inv.name = some m := by simpa [hspecial] using hknown
    simp [unsupportedFlags, Supported, hspecial, hm]

theorem not_supported_of_unknown (hunknown : l.isKnown inv.name = false) (h : l.rules.Indexed) :
    ¬Supported l.rules inv := by
  have hknown : ¬l.isKnown inv.name = true := by simp [hunknown]
  rw [isKnown_iff, ← h.contains_iff, h.contains_eq] at hknown
  rintro (⟨s, hs, -⟩ | ⟨-, m, hm, -⟩)
  · exact hknown (.inr (by rw [hs]; rfl))
  · exact hknown (.inl (by rw [hm]; rfl))

/-- Nothing is found in a stage exactly if its command is known and takes all its flags. -/
theorem stageFindings_eq_nil_iff (hgroup : isGrouped stage = false)
    (hinv : Invocation.ofTagged? stage (tagStage stage) = some inv) (h : l.rules.Indexed) :
    l.stageFindings stage = [] ↔ Supported l.rules inv := by
  unfold stageFindings
  by_cases hknown : l.isKnown inv.name = true
  · simp [hgroup, hinv, hknown, unsupportedFlags_eq_nil_iff hknown h]
  · have hnot := not_supported_of_unknown (Bool.eq_false_iff.mpr hknown) h
    simp [hgroup, hinv, hknown, hnot]

/-- What is reported is the stage of an invocation. -/
theorem exists_of_stageFindings (h : l.stageFindings stage ≠ []) : isGrouped stage = false ∧
    ∃ inv, Invocation.ofTagged? stage (tagStage stage) = some inv := by
  unfold stageFindings at h
  cases hgroup : isGrouped stage with
  | true => simp [hgroup] at h
  | false =>
    cases hinv : Invocation.ofTagged? stage (tagStage stage) with
    | none => simp [hgroup, hinv] at h
    | some inv => exact ⟨rfl, inv, rfl⟩

end Linter

/-! ## The conversion -/

theorem FlagTable.mem_keys_of_get? {table : FlagTable} {flag text : Text}
    (h : table.get? flag = some text) : flag ∈ table.keys := by
  obtain ⟨front, rest, rfl, -⟩ := List.lookup_eq_some_iff.mp h
  simp [keys]

namespace Mapping

variable {m : Mapping}

theorem exists_image? {words : List TaggedToken} {images : List Text}
    (h : words.mapM m.image? = some images) :
    ∀ word ∈ words, ∃ text, m.image? word = some text := by
  induction words generalizing images with
  | nil => nofun
  | cons word words ih =>
    rw [List.mapM_cons, Option.bind_eq_bind, Option.bind_eq_some_iff] at h
    obtain ⟨text, htext, h⟩ := h
    obtain ⟨rest, hrest, -⟩ := Option.bind_eq_some_iff.mp h
    rintro w hw
    rcases List.mem_cons.mp hw with rfl | hw
    · exact ⟨text, htext⟩
    · exact ih hrest w hw

/-- A mapping converts only invocations of which it has all flags. -/
theorem mem_keys_of_counterpart? {inv : Invocation} {text flag : Text}
    (h : m.counterpart? inv = some text) (hflag : flag ∈ inv.flags) : flag ∈ m.flags.keys := by
  unfold counterpart? at h
  cases himages : inv.words.mapM m.image? with
  | none => simp [himages] at h
  | some images =>
    obtain ⟨word, hword, rfl⟩ := List.mem_map.mp hflag
    obtain ⟨hmem, hisFlag⟩ := List.mem_filter.mp hword
    obtain ⟨image, himage⟩ := exists_image? himages word hmem
    rw [image?, if_pos hisFlag] at himage
    exact FlagTable.mem_keys_of_get? himage

end Mapping

namespace StageConverter

variable {r : StageConverter} {nested : Nested} {inv : Invocation} {stage text : Text}

theorem supported_of_convertInvocation? (h : r.convertInvocation? nested inv = some text) :
    Supported r.rules inv := by
  unfold convertInvocation? at h
  cases hspecial : Special.ofName? inv.name with
  | some s =>
    refine .inl ⟨s, hspecial, fun flag hflag => ?_⟩
    by_contra hnot
    have hmem : flag ∈ s.unsupportedFlags inv := by
      simpa [Special.unsupportedFlags, hflag] using hnot
    rw [hspecial] at h
    simp [List.isEmpty_iff, List.ne_nil_of_mem hmem] at h
  | none =>
    rw [hspecial] at h
    obtain ⟨m, hm, htext⟩ := Option.bind_eq_some_iff.mp h
    exact .inr ⟨hspecial, m, hm, fun flag hflag => m.mem_keys_of_counterpart? htext hflag⟩

/-- A stage that is not supported stays as it is, however deep it is nested. -/
theorem convertStageAt_of_not_supported
    (hinv : Invocation.ofTagged? stage (tagStage stage) = some inv)
    (hnot : ¬Supported r.rules inv) (depth : Nat) : r.convertStageAt depth stage = stage := by
  have hnone : r.convertInvocation? (r.nestedAt depth) inv = none := by
    cases htext : r.convertInvocation? (r.nestedAt depth) inv with
    | none => rfl
    | some text => exact absurd (supported_of_convertInvocation? htext) hnot
  rw [convertStageAt_eq, convertStage?]
  simp only [hinv, Option.bind_some, hnone, ite_self, Option.getD_none]

end StageConverter

/-! ## Both together -/

/-- Records a stage behind those that were recorded before. -/
def record (stage : Text) : StateM (List Text) Unit := modify (· ++ [stage])

theorem run_forM_record (stages before : List Text) :
    (forM stages record).run before = ((), before ++ stages) := by
  induction stages generalizing before with
  | nil => exact congrArg (Prod.mk ()) (List.append_nil before).symm
  | cons stage stages ih =>
    rw [List.forM_cons]
    show (forM stages record).run (before ++ [stage]) = _
    rw [ih, List.append_assoc, List.singleton_append]

theorem run_record_bind {α : Type} (stages : List Text) (a : α) :
    (forM stages record >>= fun _ => pure a).run [] = (a, stages) := by
  rw [StateT.run_bind, run_forM_record]
  rfl

/-- The report of one stage. -/
def Linter.stageReport (l : Linter) (stage : Text) : Report := .ofFindings (l.stageFindings stage)

/-- For every table of a user and every target: a stage of which something is reported stays as it
is. Of a stage with a command, outside of groups, nothing is reported exactly if the command has a
rule of its own or a mapping that takes its flags. A line without blanks around it is checked and
converted stage by stage, the same stages in the same order. -/
theorem lint_agrees_with_conversion (overlay : List Mapping) (score : Text → Text → Int)
    (target : Target) :
    let rules := RuleTable.withOverlay overlay
    let linter : Linter := ⟨rules, score⟩
    (∀ stage, (linter.stageReport stage).unsupported ≠ [] →
        ∀ depth, StageConverter.convertStageAt ⟨rules, target⟩ depth stage = stage) ∧
      (∀ stage inv, isGrouped stage = false →
        Invocation.ofTagged? stage (tagStage stage) = some inv →
        ((linter.stageReport stage).unsupported = [] ↔ Supported rules inv)) ∧
      ∀ line, Text.trim line = line → ∃ stages,
        (linter.lintM record line).run [] = (linter.lint line, stages) ∧
        (linter.lint line).unsupported =
          stages.flatMap (fun stage => (linter.stageReport stage).unsupported) ∧
        ∀ enabled, let converter : Converter := ⟨enabled, target, rules⟩
          (converter.convertLineM record line).run [] =
            (converter.convertLine line,
              if enabled && target.needsConversion then stages else []) := by
  intro rules linter
  have hindexed : rules.Indexed := RuleTable.indexed_withOverlay overlay
  refine ⟨fun stage hreport depth => ?_, fun stage inv hgroup hinv => ?_, fun line htrim => ?_⟩
  · have hfound : linter.stageFindings stage ≠ [] := fun hnil => hreport (by
      rw [Linter.stageReport, hnil]; rfl)
    obtain ⟨hgroup, inv, hinv⟩ := Linter.exists_of_stageFindings hfound
    refine StageConverter.convertStageAt_of_not_supported hinv (fun hsupported => hfound ?_) depth
    exact (Linter.stageFindings_eq_nil_iff hgroup hinv hindexed).mpr hsupported
  · rw [← Linter.stageFindings_eq_nil_iff (l := linter) hgroup hinv hindexed]
    exact List.map_eq_nil_iff
  · refine ⟨Converter.stages line, ?_, ?_, fun enabled => ?_⟩
    · rw [Linter.lintM_eq, run_record_bind]
    · rw [Linter.lint_eq, Report.ofFindings, List.map_flatMap]
      rfl
    · intro converter
      rw [Converter.convertLineM_eq, htrim]
      by_cases hconverts : (enabled && target.needsConversion) = true
      · rw [if_pos hconverts, if_pos hconverts, run_record_bind]
      · rw [if_neg hconverts, if_neg hconverts, pure_bind]
        rfl

/-- A command that is not built in, with one flag. -/
def reverseOverlay : List Mapping :=
  [{ name := "tac".toList, verb := "Get-Reversed".toList, flags := [("-r".toList, [])] }]

/-- A flag that is not known, a command of the user, and a group. -/
def reverseLine : Text := "ls -Q | tac -r f && (a; b)".toList

theorem lint_agrees_with_conversion_reverseLine :
    let rules := RuleTable.withOverlay reverseOverlay
    let linter : Linter := ⟨rules, similarity⟩
    (linter.stageReport "ls -Q".toList).unsupported ≠ [] ∧
      StageConverter.convertStageAt ⟨rules, .console⟩ maxDepth "ls -Q".toList = "ls -Q".toList ∧
      (linter.stageReport "tac -r f".toList).unsupported = [] ∧
      Text.trim reverseLine = reverseLine ∧
      (linter.lintM record reverseLine).run [] =
        (linter.lint reverseLine, ["ls -Q".toList, "tac -r f".toList, "(a; b)".toList]) ∧
      (Converter.convertLineM ⟨true, .console, rules⟩ record reverseLine).run [] =
        (Converter.convertLine ⟨true, .console, rules⟩ reverseLine,
          ["ls -Q".toList, "tac -r f".toList, "(a; b)".toList]) := by
  intro rules linter
  obtain ⟨hstays, hclean, hwalk⟩ := lint_agrees_with_conversion reverseOverlay similarity .console
  have hflag : (linter.stageReport "ls -Q".toList).unsupported ≠ [] :=
    mt (hclean "ls -Q".toList
      ⟨"ls".toList, "ls -Q".toList, [⟨⟨"-Q".toList, 3, 5, none⟩, .flag⟩], []⟩
      (by decide +kernel) (by decide +kernel)).mp (by decide +kernel)
  have htac : (linter.stageReport "tac -r f".toList).unsupported = [] :=
    (hclean "tac -r f".toList ⟨"tac".toList, "tac -r f".toList,
      [⟨⟨"-r".toList, 4, 6, none⟩, .flag⟩, ⟨⟨"f".toList, 7, 8, none⟩, .argument⟩], []⟩
      (by decide +kernel) (by decide +kernel)).mpr (by decide +kernel)
  have htrim : Text.trim reverseLine = reverseLine := by decide +kernel
  obtain ⟨stages, hlint, -, hconvert⟩ := hwalk reverseLine htrim
  have hstages : stages = ["ls -Q".toList, "tac -r f".toList, "(a; b)".toList] := by
    have hrun := hlint
    rw [Linter.lintM_eq, run_record_bind] at hrun
    rw [← (Prod.mk.inj hrun).2]
    decide +kernel
  rw [hstages] at hlint
  exact ⟨hflag, hstays _ hflag maxDepth, htac, htrim, hlint, hstages ▸ hconvert true⟩

end CrossShell
