import CrossShell.Conversion
import CrossShell.Proofs.Line.Seams
import CrossShell.Proofs.Written.Stages

/-!
# The stages of a line, converted or not

A rebuilt line has the connectors of the line if each of its stages is quiet, and carries where
something stands behind it.

* **Stages that stay as they are**: `quiet_of_mem_stages`, `carries_of_mem_innerStages`. The line is
  cut at tokens, so nothing is asked of it but that all its white space separates tokens.
* **Converted stages**: `quiet_convertStage`, `carries_convertStage`. What the rules and mappings
  write is quiet and carries if the words of the stage can stand in it.
-/

namespace CrossShell

open Text (isBlank)

/-! ## The stages of a line -/

/-- The stages of segments with a stage or a connector behind them. -/
def innerStages : List Segment → List Text
  | [] => []
  | .connector _ :: rest => innerStages rest
  | .commands t :: rest =>
    if rest.isEmpty then (stagesOf t).flatten.dropLast
    else (stagesOf t).flatten ++ innerStages rest

/-- A stage with something behind it: in its own segment, or behind it. -/
theorem exists_of_mem_innerStages {segments : List Segment} {s : Text}
    (h : s ∈ innerStages segments) :
    ∃ t, .commands t ∈ segments ∧ (s ∈ (stagesOf t).flatten.dropLast ∨
      s ∈ (stagesOf t).flatten ∧ .commands t ∈ segments.dropLast) := by
  fun_induction innerStages segments with
  | case1 => cases h
  | case2 c rest ih =>
    obtain ⟨t, ht, hs⟩ := ih h
    refine ⟨t, List.mem_cons_of_mem _ ht, hs.imp_right fun ⟨hs, hlast⟩ => ⟨hs, ?_⟩⟩
    rw [List.dropLast_cons_of_ne_nil (List.ne_nil_of_mem ht)]
    exact List.mem_cons_of_mem _ hlast
  | case3 t rest _ => exact ⟨t, List.mem_cons_self, .inl h⟩
  | case4 t rest hrest ih =>
    have hne : rest ≠ [] := fun hnil => hrest (List.isEmpty_iff.mpr hnil)
    rcases List.mem_append.mp h with h | h
    · refine ⟨t, List.mem_cons_self, .inr ⟨h, ?_⟩⟩
      rw [List.dropLast_cons_of_ne_nil hne]
      exact List.mem_cons_self
    · obtain ⟨t', ht, hs⟩ := ih h
      refine ⟨t', List.mem_cons_of_mem _ ht, hs.imp_right fun ⟨hs, hlast⟩ => ⟨hs, ?_⟩⟩
      rw [List.dropLast_cons_of_ne_nil hne]
      exact List.mem_cons_of_mem _ hlast

theorem mem_stages_of_mem_innerStages {line s : Text} (h : s ∈ innerStages (splitConnectors line)) :
    s ∈ Converter.stages line := by
  obtain ⟨t, ht, hs⟩ := exists_of_mem_innerStages h
  refine List.mem_flatMap.mpr ⟨.commands t, ht, ?_⟩
  rcases hs with hs | ⟨hs, -⟩
  · exact (List.dropLast_sublist _).subset hs
  · exact hs

theorem exists_of_mem_dropLast_flatten {α β : Type} {f : α → List β} {as : List α} {b : β}
    (h : b ∈ (as.map f).flatten.dropLast) :
    ∃ a ∈ as, b ∈ (f a).dropLast ∨ b ∈ f a ∧ a ∈ as.dropLast := by
  induction as with
  | nil => cases h
  | cons a as ih =>
    rw [List.map_cons, List.flatten_cons] at h
    by_cases hnil : (as.map f).flatten = []
    · rw [hnil, List.append_nil] at h
      exact ⟨a, List.mem_cons_self, .inl h⟩
    · have hne : as ≠ [] := by
        rintro rfl
        exact hnil rfl
      rw [List.dropLast_append_of_ne_nil hnil] at h
      rw [List.dropLast_cons_of_ne_nil hne]
      rcases List.mem_append.mp h with h | h
      · exact ⟨a, List.mem_cons_self, .inr ⟨h, List.mem_cons_self⟩⟩
      · obtain ⟨a', ha, hb⟩ := ih h
        exact ⟨a', List.mem_cons_of_mem _ ha, hb.imp_right fun ⟨hb, hlast⟩ =>
          ⟨hb, List.mem_cons_of_mem _ hlast⟩⟩

/-- Parts of parts. -/
theorem ReadsInParts.flatten {whole : Text} {parts : List Text} {split : Text → List Text}
    (h : ReadsInParts whole parts) (hsplit : ∀ p ∈ parts, ReadsInParts p (split p)) :
    ReadsInParts whole (parts.map split).flatten := by
  have hmem : ∀ q ∈ (parts.map split).flatten, ∃ p ∈ parts, q ∈ split p := by
    intro q hq
    rwa [← List.flatMap_def, List.mem_flatMap] at hq
  refine ⟨fun q hq => ?_, fun q hq => ?_, fun q hq => ?_, fun hwhole q hq => ?_⟩
  · obtain ⟨p, hp, hq⟩ := hmem q hq
    exact (hsplit p hp).front q hq
  · obtain ⟨p, hp, hq⟩ := hmem q hq
    exact (hsplit p hp).quiet q hq
  · obtain ⟨p, hp, hq | ⟨hq, hlast⟩⟩ := exists_of_mem_dropLast_flatten hq
    · exact (hsplit p hp).inner q hq
    · exact (hsplit p hp).all (h.inner p hlast) q hq
  · obtain ⟨p, hp, hq⟩ := hmem q hq
    exact (hsplit p hp).all (h.all hwhole p hp) q hq

section

variable {line : Text} (hline : ∀ c ∈ line, isBlank c = true → isGap c = true)
include hline

theorem reads_stagesOf (hquiet : Scan.init.found line = []) :
    ReadsInParts line (stagesOf line).flatten := by
  have hcommands := reads_splitSequence hline hquiet
  refine hcommands.flatten fun p hp => ?_
  exact reads_splitPipe (gaps_of_mem_splitSequence hline hp) (hcommands.quiet p hp)

theorem quiet_of_mem_stages {s : Text} (h : s ∈ Converter.stages line) : Quiet s := by
  obtain ⟨segment, hsegment, hs⟩ := List.mem_flatMap.mp h
  cases segment with
  | connector c => cases hs
  | commands t =>
    obtain ⟨hquiet, hgaps⟩ := reads_segment hline hsegment
    have hreads := reads_stagesOf hgaps hquiet
    exact quiet_of_found (hreads.front s hs) (hreads.quiet s hs)

theorem carries_of_mem_innerStages {s : Text} (h : s ∈ innerStages (splitConnectors line)) :
    Carries s := by
  obtain ⟨t, ht, hs⟩ := exists_of_mem_innerStages h
  obtain ⟨hquiet, hgaps⟩ := reads_segment hline ht
  have hreads := reads_stagesOf hgaps hquiet
  rcases hs with hs | ⟨hs, hlast⟩
  · have hmem : s ∈ (stagesOf t).flatten := (List.dropLast_sublist _).subset hs
    exact carries_of_ready (hreads.front s hmem) (hreads.inner s hs)
  · exact carries_of_ready (hreads.front s hs) (hreads.all (ready_segment hline hlast) s hs)

end

/-! ## Converted stages -/

theorem Scan.ready_of_level {s : Scan} (hlevel : s.mode.level ≤ 3) (hnesting : s.nesting = .top) :
    s.ready = true := by
  obtain ⟨mode, n⟩ := s
  obtain rfl : n = .top := hnesting
  cases mode with
  | quote w q => simp [ScanMode.level] at hlevel
  | quoteEscape w => simp [ScanMode.level] at hlevel
  | _ => rfl

theorem Begins.quiet {t : Text} {p : Point} (h : Begins t p) : Quiet t := by
  obtain ⟨c, u, rfl, hc⟩ := h.opens
  refine quiet_of_found (by simpa using hc) ?_
  exact (h.leads .top .init ⟨Nat.le_refl 0, rfl⟩).1

theorem Begins.carries {t : Text} (h : Begins t .firm) : Carries t := by
  obtain ⟨c, u, rfl, hc⟩ := h.opens
  refine carries_of_ready (by simpa using hc) ?_
  obtain ⟨-, hlevel, hnesting⟩ := h.leads .top .init ⟨Nat.le_refl 0, rfl⟩
  exact Scan.ready_of_level (Nat.le_succ_of_le hlevel) hnesting

section

variable {r : StageConverter} (hr : r.rules.Legible) {s : Text}
  (hs : r.convertStage s ≠ s → Legible s)
include hr hs

/-- A stage stays as it is, or becomes the text of a rule or a mapping. -/
theorem convertStage_cases : r.convertStage s = s ∨ Begins (r.convertStage s) .firm := by
  by_cases hsame : r.convertStage s = s
  · exact .inl hsame
  · have hlegible := hs hsame
    rw [StageConverter.convertStage, StageConverter.convertStageAt_eq] at hsame ⊢
    cases hcounterpart : r.convertStage? (r.nestedAt maxDepth) s with
    | none => exact .inl rfl
    | some text => exact .inr (begins_convertStage hr hlegible hcounterpart)

theorem quiet_convertStage (h : Quiet s) : Quiet (r.convertStage s) := by
  rcases convertStage_cases hr hs with hsame | hbegins
  · rwa [hsame]
  · exact hbegins.quiet

theorem carries_convertStage (h : Carries s) : Carries (r.convertStage s) := by
  rcases convertStage_cases hr hs with hsame | hbegins
  · rwa [hsame]
  · exact hbegins.carries

end

end CrossShell
