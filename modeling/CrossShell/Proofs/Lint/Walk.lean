import CrossShell.Lint

/-!
# Going through a line

Conversion and check go through a line each in a loop of its own: over the segments between
connectors, the pieces between semicolons and the stages between pipes. Here both loops call an
action at every stage they come to. The action can be one of any monad, so that it can record the
stages.

* `Converter.convertLineM`, `Linter.lintM`: conversion and check with an action at every stage.
* `Visits`: which stages a loop comes to, what it makes of its state, and what it returns.
* `Converter.convertLineM_eq`, `Linter.lintM_eq`: both come to the same stages, and give what they
  give without the action.
-/

namespace CrossShell

variable {m : Type → Type} [Monad m]

/-! ## The loops -/

namespace Converter

/-- Converts a stage and takes note of what was done. -/
def convertStageM (t : Converter) (visit : Text → m Unit) (stage : Text) :
    StateT (List Text) m Text := do
  visit stage
  modify (t.addDescription · stage)
  return t.stageConverter.convertStage stage

/-- A segment out of what an action gives for its stages. -/
def rebuildSegmentM (convert : Text → m Text) : Segment → m Text
  | .connector c => pure (" " ++ c.text ++ " ")
  | .commands text => do
    let pieces ← (splitSequence text).mapM fun piece => do
      let stages ← (splitPipe piece).mapM convert
      return Text.join " | " stages
    return Text.join "; " pieces

/-- A line out of what an action gives for its stages, its connectors as they are. -/
def rebuildM (convert : Text → m Text) (line : Text) : m Text := do
  let texts ← (splitConnectors line).mapM (rebuildSegmentM convert)
  return Text.trim texts.flatten

/-- Converts a line in one go: the descriptions are noted while the line is put together. -/
def convertLineM (t : Converter) (visit : Text → m Unit) (command : Text) : m Conversion :=
  if !t.enabled then pure (.unchanged command)
  else
    let command := Text.trim command
    if command.isEmpty || !t.target.needsConversion then pure (.unchanged command)
    else do
      let (line, noted) ← (rebuildM (t.convertStageM visit) command).run []
      let emulated := emulate t.target line
      let descriptions := noted ++
        (if emulated ≠ line ∧ t.target.kind = .powerShell then [emulateDescription] else [])
      return if descriptions.isEmpty then .unchanged command
        else ⟨true, command, wrap t.target emulated, Text.join "; " descriptions⟩

end Converter

namespace Linter

/-- Checks a stage and adds to what was found before. -/
def lintStageM (l : Linter) (visit : Text → m Unit) (stage : Text) :
    StateT (List Finding) m Unit := do
  visit stage
  modify (· ++ l.stageFindings stage)

/-- Checks a segment, piece by piece and stage by stage. -/
def lintSegmentM (l : Linter) (visit : Text → m Unit) : Segment → StateT (List Finding) m Unit
  | .connector _ => pure ()
  | .commands text =>
    forM (splitSequence text) fun piece => forM (splitPipe piece) (l.lintStageM visit)

/-- Checks a line, segment by segment. -/
def lintM (l : Linter) (visit : Text → m Unit) (line : Text) : m Report := do
  let (_, findings) ← (forM (splitConnectors line) (l.lintSegmentM visit)).run []
  return .ofFindings findings

end Linter

/-! ## The stages of a loop -/

/-- A loop calls `visit` at the stages one by one, changes its state by `step` at each of them, and
returns a value. -/
def Visits {σ α : Type} (visit : Text → m Unit) (step : σ → Text → σ) (loop : StateT σ m α)
    (stages : List Text) (a : α) : Prop :=
  ∀ s, loop.run s = forM stages visit >>= fun _ => pure (a, stages.foldl step s)

namespace Visits

variable [LawfulMonad m] {σ α β ι : Type} {visit : Text → m Unit} {step : σ → Text → σ}
  {stages stages' : List Text} {a : α} {b : β}

theorem pure (a : α) : Visits visit step (Pure.pure a) [] a := fun s => by simp

theorem bind {x : StateT σ m α} {f : α → StateT σ m β} (hx : Visits visit step x stages a)
    (hf : Visits visit step (f a) stages' b) :
    Visits visit step (x >>= f) (stages ++ stages') b := by
  intro s
  rw [StateT.run_bind, hx]
  simp [hf _]

theorem map {x : StateT σ m α} (hx : Visits visit step x stages a) (f : α → β) :
    Visits visit step (x >>= fun a => Pure.pure (f a)) stages (f a) := by
  have hbind := hx.bind (f := fun a => Pure.pure (f a)) (pure (f a))
  rwa [List.append_nil] at hbind

theorem mapM {f : ι → StateT σ m α} {g : ι → List Text} {h : ι → α}
    (hf : ∀ i, Visits visit step (f i) (g i) (h i)) (is : List ι) :
    Visits visit step (is.mapM f) (is.flatMap g) (is.map h) := by
  induction is with
  | nil => exact pure []
  | cons i is ih =>
    rw [List.mapM_cons, List.flatMap_cons, List.map_cons]
    exact (hf i).bind (ih.map (h i :: ·))

theorem forM {f : ι → StateT σ m Unit} {g : ι → List Text}
    (hf : ∀ i, Visits visit step (f i) (g i) ()) (is : List ι) :
    Visits visit step (ForM.forM is f) (is.flatMap g) () := by
  induction is with
  | nil => exact pure ()
  | cons i is ih =>
    rw [List.forM_cons, List.flatMap_cons]
    exact (hf i).bind ih

end Visits

/-! ## Both loops come to the same stages -/

variable [LawfulMonad m]

namespace Converter

theorem visits_convertStageM (t : Converter) (visit : Text → m Unit) (stage : Text) :
    Visits visit t.addDescription (t.convertStageM visit stage) [stage]
      (t.stageConverter.convertStage stage) := by
  intro ds
  simp [convertStageM]

/-- The stages of a segment. -/
def segmentStages : Segment → List Text
  | .connector _ => []
  | .commands text => (splitSequence text).flatMap splitPipe

theorem stages_eq (line : Text) : stages line = (splitConnectors line).flatMap segmentStages := rfl

theorem visits_rebuildSegmentM (t : Converter) (visit : Text → m Unit) (segment : Segment) :
    Visits visit t.addDescription (rebuildSegmentM (t.convertStageM visit) segment)
      (segmentStages segment) (t.rebuildSegment segment) := by
  cases segment with
  | connector c => exact .pure _
  | commands text =>
    have hpiece (piece : Text) : Visits visit t.addDescription
        ((splitPipe piece).mapM (t.convertStageM visit)) (splitPipe piece)
        ((splitPipe piece).map t.stageConverter.convertStage) := by
      simpa using Visits.mapM (t.visits_convertStageM visit) (splitPipe piece)
    have hpieces := Visits.mapM (fun piece => (hpiece piece).map (Text.join " | "))
      (splitSequence text)
    have hjoined : t.rebuildSegment (.commands text) = Text.join "; " ((splitSequence text).map
        fun piece => Text.join " | " ((splitPipe piece).map t.stageConverter.convertStage)) := by
      rw [rebuildSegment, stagesOf, List.map_map]
      rfl
    rw [hjoined]
    exact hpieces.map (Text.join "; ")

theorem visits_rebuildM (t : Converter) (visit : Text → m Unit) (line : Text) :
    Visits visit t.addDescription (rebuildM (t.convertStageM visit) line) (stages line)
      (t.rebuild line) := by
  have hsegments := Visits.mapM (t.visits_rebuildSegmentM visit) (splitConnectors line)
  have hline := hsegments.map fun texts => Text.trim texts.flatten
  rw [stages_eq]
  exact hline

/-- Converting with an action at every stage is going through the stages and converting. -/
theorem convertLineM_eq (t : Converter) (visit : Text → m Unit) (command : Text) :
    t.convertLineM visit command =
      (if t.enabled && t.target.needsConversion then ForM.forM (stages (Text.trim command)) visit
        else pure ()) >>= fun _ => pure (t.convertLine command) := by
  unfold convertLineM convertLine
  by_cases henabled : t.enabled = true
  · by_cases hneeds : t.target.needsConversion = true
    · by_cases hempty : Text.trim command = []
      · have hstages : stages [] = [] := rfl
        simp [henabled, hneeds, hempty, hstages]
      · simp only [henabled, hneeds, t.visits_rebuildM visit _ []]
        simp [hempty, stageDescriptions]
    · simp [henabled, hneeds]
  · simp [henabled]

end Converter

namespace Linter

theorem visits_lintStageM (l : Linter) (visit : Text → m Unit) (stage : Text) :
    Visits visit (fun found stage => found ++ l.stageFindings stage) (l.lintStageM visit stage)
      [stage] () := by
  intro found
  simp [lintStageM]

theorem visits_lintSegmentM (l : Linter) (visit : Text → m Unit) (segment : Segment) :
    Visits visit (fun found stage => found ++ l.stageFindings stage) (l.lintSegmentM visit segment)
      (Converter.segmentStages segment) () := by
  cases segment with
  | connector c => exact .pure ()
  | commands text =>
    have hpiece (piece : Text) : Visits visit (fun found stage => found ++ l.stageFindings stage)
        (ForM.forM (splitPipe piece) (l.lintStageM visit)) (splitPipe piece) () := by
      simpa using Visits.forM (l.visits_lintStageM visit) (splitPipe piece)
    exact Visits.forM hpiece (splitSequence text)

theorem lint_eq (l : Linter) (line : Text) :
    l.lint line = .ofFindings ((Converter.stages line).flatMap l.stageFindings) := by
  rw [lint, Converter.stages_eq, List.flatMap_assoc]
  refine congrArg (fun f => Report.ofFindings ((splitConnectors line).flatMap f)) (funext ?_)
  rintro (text | c)
  · exact List.flatMap_assoc.symm
  · rfl

/-- Checking with an action at every stage is going through the stages and checking. -/
theorem lintM_eq (l : Linter) (visit : Text → m Unit) (line : Text) :
    l.lintM visit line =
      ForM.forM (Converter.stages line) visit >>= fun _ => pure (l.lint line) := by
  have hline := Visits.forM (l.visits_lintSegmentM visit) (splitConnectors line) []
  rw [← List.flatMap_eq_foldl] at hline
  rw [lintM, hline, lint_eq, Converter.stages_eq, bind_assoc]
  simp only [pure_bind]

end Linter

end CrossShell
