import CrossShell.Conversion
import CrossShell.Proofs.Text.Trim

/-!
# What a conversion says about itself

A conversion says whether anything was done. It finds that out from the descriptions it collected,
and a description is looked up by reading the stage a second time.

* `Converter.exists_describe?`: a stage that was changed has a description.
* `Converter.mem_stageDescriptions`: the descriptions collected for a line are those of its changed
  stages.
* `Converter.converted_iff`: a line counts as converted if one of its stages was changed, or its
  connectors were for a shell that has none; if it does not, it comes back as it was.
-/

namespace CrossShell

namespace Converter

variable {t : Converter} {stage line : Text}

/-- The conversion of a stage differs from the stage. -/
def Changes (t : Converter) (stage : Text) : Prop := t.stageConverter.convertStage stage ≠ stage

instance (t : Converter) (stage : Text) : Decidable (t.Changes stage) :=
  inferInstanceAs (Decidable (_ ≠ _))

/-- A converted stage has an invocation that was converted. -/
theorem exists_convertInvocation? (h : t.Changes stage) :
    ∃ inv text, Invocation.ofTagged? stage (tagStage stage) = some inv ∧
      t.stageConverter.convertInvocation? (t.stageConverter.nestedAt maxDepth) inv = some text := by
  rw [Changes, StageConverter.convertStage, StageConverter.convertStageAt_eq] at h
  cases htext : t.stageConverter.convertStage? (t.stageConverter.nestedAt maxDepth) stage with
  | none => exact absurd (by rw [htext, Option.getD_none]) h
  | some text =>
    obtain ⟨-, -, -, inv, hinv, htext⟩ := StageConverter.convertStage?_eq_some_iff.mp htext
    exact ⟨inv, text, hinv, htext⟩

/-- A stage that was changed has a description: the rule or mapping that changed it is found
again. -/
theorem exists_describe? (h : t.Changes stage) : ∃ d, t.describe? stage = some d := by
  obtain ⟨inv, text, hinv, htext⟩ := exists_convertInvocation? h
  cases hspecial : Special.ofName? inv.name with
  | some s => exact ⟨s.description, by simp [describe?, hinv, hspecial]⟩
  | none =>
    rw [StageConverter.convertInvocation?, hspecial] at htext
    obtain ⟨m, hm, -⟩ := Option.bind_eq_some_iff.mp htext
    have hget : t.rules.get? inv.name = some m := hm
    exact ⟨m.description, by simp [describe?, hinv, hspecial, hget]⟩

/-- A stage adds its description if it was changed, and nothing else. -/
theorem mem_addDescription {ds : List Text} {d : Text} : d ∈ t.addDescription ds stage ↔
    d ∈ ds ∨ t.Changes stage ∧ t.describe? stage = some d := by
  unfold addDescription
  by_cases hsame : t.stageConverter.convertStage stage = stage
  · have hnot : ¬t.Changes stage := fun h => h hsame
    simp [hsame, hnot]
  · have hchanges : t.Changes stage := hsame
    obtain ⟨e, he⟩ := exists_describe? hchanges
    rw [if_neg hsame, he]
    by_cases hmem : e ∈ ds
    · have hcontains : ds.contains e = true := List.contains_iff_mem.mpr hmem
      simp only [hcontains, if_true, Option.some.injEq, hchanges, true_and]
      exact ⟨.inl, fun h => h.elim id fun heq => heq ▸ hmem⟩
    · simp [hmem, hchanges, eq_comm]

/-- The descriptions that a run over stages collects, behind those from before. -/
theorem mem_foldl_addDescription {ds : List Text} {d : Text} {stages : List Text} :
    d ∈ stages.foldl t.addDescription ds ↔
      d ∈ ds ∨ ∃ stage ∈ stages, t.Changes stage ∧ t.describe? stage = some d := by
  induction stages generalizing ds with
  | nil => simp
  | cons stage stages ih => simp [ih, mem_addDescription, or_assoc]

/-- The descriptions of a line are those of its changed stages. -/
theorem mem_stageDescriptions {d : Text} : d ∈ t.stageDescriptions line ↔
    ∃ stage ∈ stages line, t.Changes stage ∧ t.describe? stage = some d := by
  simp [stageDescriptions, mem_foldl_addDescription]

/-- There is a description exactly if a stage was changed. -/
theorem stageDescriptions_eq_nil_iff :
    t.stageDescriptions line = [] ↔ ∀ stage ∈ stages line, ¬t.Changes stage := by
  rw [List.eq_nil_iff_forall_not_mem]
  refine ⟨fun h stage hstage hchanges => ?_, fun h d hd => ?_⟩
  · obtain ⟨d, hd⟩ := exists_describe? hchanges
    exact h d (mem_stageDescriptions.mpr ⟨stage, hstage, hchanges, hd⟩)
  · obtain ⟨stage, hstage, hchanges, -⟩ := mem_stageDescriptions.mp hd
    exact h stage hstage hchanges

/-- The connectors of the rebuilt line are converted, and this counts as a conversion. -/
def Emulates (t : Converter) (line : Text) : Prop :=
  t.target.kind = .powerShell ∧ emulate t.target (t.rebuild line) ≠ t.rebuild line

/-- Nothing is done in an empty line. -/
theorem not_emulates_nil : ¬t.Emulates [] := by
  rintro ⟨-, hne⟩
  refine hne ?_
  have hrebuild : t.rebuild [] = [] := rfl
  rw [hrebuild, emulate]
  split
  · rfl
  · rfl

instance (t : Converter) (line : Text) : Decidable (t.Emulates line) :=
  inferInstanceAs (Decidable (_ ∧ _))

/-- Something was done in a line: in one of its stages or to its connectors. -/
def Acts (t : Converter) (line : Text) : Prop :=
  (∃ stage ∈ stages line, t.Changes stage) ∨ t.Emulates line

instance (t : Converter) (line : Text) : Decidable (t.Acts line) :=
  inferInstanceAs (Decidable (_ ∨ _))

/-- What was done in a line, in words. -/
def account (t : Converter) (line : Text) : List Text :=
  t.stageDescriptions line ++ if t.Emulates line then [emulateDescription] else []

theorem account_eq_nil_iff : t.account line = [] ↔ ¬t.Acts line := by
  rw [account, List.append_eq_nil_iff, stageDescriptions_eq_nil_iff, Acts, not_or]
  by_cases hemulates : t.Emulates line <;> simp [hemulates]

/-- What becomes of a line, for a target that needs conversion. -/
theorem convertLine_eq (henabled : t.enabled = true) (hneeds : t.target.needsConversion = true)
    (command : Text) : t.convertLine command =
      if t.Acts (Text.trim command) then
        ⟨true, Text.trim command,
          wrap t.target (emulate t.target (t.rebuild (Text.trim command))),
          Text.join "; " (t.account (Text.trim command))⟩
      else .unchanged (Text.trim command) := by
  unfold convertLine
  simp only [henabled, hneeds, Bool.not_true, Bool.false_eq_true, if_false, Bool.or_false]
  by_cases hempty : Text.trim command = []
  · have hidle : ¬t.Acts [] := by
      rintro (⟨stage, hstage, -⟩ | hemulates)
      · cases hstage
      · exact not_emulates_nil hemulates
    simp [hempty, hidle]
  · have hwords : (t.stageDescriptions (Text.trim command) ++
        if emulate t.target (t.rebuild (Text.trim command)) ≠ t.rebuild (Text.trim command) ∧
          t.target.kind = .powerShell then [emulateDescription] else []) =
        t.account (Text.trim command) :=
      congrArg (t.stageDescriptions (Text.trim command) ++ ·)
        (ite_congr (propext and_comm) (fun _ => rfl) fun _ => rfl)
    rw [hwords]
    by_cases hacts : t.Acts (Text.trim command)
    · have hsome : t.account (Text.trim command) ≠ [] := fun h => account_eq_nil_iff.mp h hacts
      simp [hempty, hacts, hsome]
    · simp [hempty, hacts, account_eq_nil_iff.mpr hacts]

/-- **A conversion tells whether it did anything.** It says so exactly if a stage of the line was
changed, or if the shell is a PowerShell for which the connectors of the rebuilt line were written
out. If it says that nothing was done, the line to run is the line that was given, without the
blanks around it. A stage that was changed has a description, which is among those collected. -/
theorem converted_iff (henabled : t.enabled = true) (hneeds : t.target.needsConversion = true)
    (command : Text) :
    let line := Text.trim command
    let conversion := t.convertLine command
    (conversion.converted = true ↔
        (∃ stage ∈ stages line, t.stageConverter.convertStage stage ≠ stage) ∨
          t.target.kind = .powerShell ∧ emulate t.target (t.rebuild line) ≠ t.rebuild line) ∧
      (conversion.converted = false → conversion.source = line ∧ conversion.line = line) ∧
      ∀ stage, t.stageConverter.convertStage stage ≠ stage →
        ∃ d, t.describe? stage = some d ∧ (stage ∈ stages line → d ∈ t.stageDescriptions line) := by
  intro line conversion
  have hconversion : conversion = _ := convertLine_eq henabled hneeds command
  refine ⟨?_, ?_, fun stage hchanges => ?_⟩
  · show conversion.converted = true ↔ t.Acts line
    rw [hconversion]
    by_cases hacts : t.Acts line
    · simp [hacts, line]
    · simp [hacts, line, Conversion.unchanged]
  · intro hfalse
    rw [hconversion] at hfalse ⊢
    by_cases hacts : t.Acts (Text.trim command)
    · rw [if_pos hacts] at hfalse
      cases hfalse
    · rw [if_neg hacts]
      exact ⟨rfl, rfl⟩
  · obtain ⟨d, hd⟩ := exists_describe? hchanges
    exact ⟨d, hd, fun hstage => mem_stageDescriptions.mpr ⟨stage, hstage, hchanges, hd⟩⟩

end Converter

/-- A command of a user whose description is empty. -/
def silentOverlay : List Mapping := [{ name := "tac".toList, verb := "Get-Reversed".toList }]

/-- A conversion for the console, which has connectors, by that mapping. -/
def silentConverter : Converter := ⟨true, .console, .withOverlay silentOverlay⟩

/-- The mapping has nothing to say, and yet the line with it counts as converted. Connectors and odd
gaps alone leave a line for the console as it was. -/
theorem converted_silentConverter :
    silentConverter.enabled = true ∧ silentConverter.target.needsConversion = true ∧
      (silentConverter.convertLine " a |tac".toList).converted = true ∧
      (silentConverter.convertLine " a |tac".toList).description = [] ∧
      (silentConverter.convertLine " a;;b  &&c ".toList).converted = false ∧
      (silentConverter.convertLine " a;;b  &&c ".toList).line = "a;;b  &&c".toList := by
  obtain ⟨htac, -, -⟩ := silentConverter.converted_iff rfl rfl " a |tac".toList
  obtain ⟨hiff, hkept, -⟩ := silentConverter.converted_iff rfl rfl " a;;b  &&c ".toList
  have hfalse : (silentConverter.convertLine " a;;b  &&c ".toList).converted = false := by
    rw [Bool.eq_false_iff, ne_eq, hiff]
    decide +kernel
  have hline := (hkept hfalse).2
  refine ⟨rfl, rfl, htac.mpr (.inl ⟨"tac".toList, ?_, ?_⟩), ?_, hfalse, hline.trans ?_⟩ <;>
    decide +kernel

end CrossShell
