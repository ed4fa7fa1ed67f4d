import CrossShell.Proofs.Find.Listing

/-!
# Operators in a `find`

An operator in the expression of a `find` has no place in a listing. Behind the first flag, every
operator keeps the stage as it is. In front of it, `!` and the parentheses are no flags, and are
listed as start paths.

* `startPaths_eq`, `exists_operator`: what the words in front of the first flag are.
* `operators_respected_iff`: a `find` with an operator stays as it is exactly if no operator is
  listed as a start path, or the rest of the stage has no listing. Where only paths are listed, a
  listing has the tests that were written, and a file passes the expression exactly if all hold.
* `negation_lost`: a stage with `!` that becomes a listing all the same.
-/

namespace CrossShell.Find

variable {words : List TaggedToken}

/-- If only paths are listed, the expression starts at the first flag. -/
theorem startPaths_eq (h : ∀ w ∈ listedPaths words, isPath w = true) :
    startPaths words = listedPaths words ∧ expression words = listedParts words := by
  induction words with
  | nil => exact ⟨rfl, rfl⟩
  | cons w ws ih =>
    cases hw : w.isFlag with
    | true => simp [startPaths, listedPaths, expression, listedParts, isPath, hw]
    | false =>
      rw [listedPaths_cons hw] at h
      have hpath := h w List.mem_cons_self
      obtain ⟨hpaths, hparts⟩ := ih fun v hv => h v (List.mem_cons_of_mem _ hv)
      simp only [startPaths, listedPaths, expression, listedParts] at hpaths hparts ⊢
      simp [hw, hpath, hpaths, hparts]

/-- A word in front of the first flag that is no path is an operator of the expression. -/
theorem exists_operator {word : TaggedToken} (hmem : word ∈ listedPaths words)
    (hword : isPath word = false) : ∃ o, Part.operator o ∈ expression words := by
  induction words with
  | nil => cases hmem
  | cons w ws ih =>
    cases hw : w.isFlag with
    | true => simp [listedPaths, hw] at hmem
    | false =>
      cases hpath : isPath w with
      | true =>
        have hnext : expression (w :: ws) = expression ws := by simp [expression, hpath]
        rw [listedPaths_cons hw] at hmem
        rcases List.mem_cons.mp hmem with rfl | hmem
        · rw [hpath] at hword
          cases hword
        · rw [hnext]
          exact ih hmem
      | false =>
        obtain ⟨o, ho⟩ : ∃ o, Operator.ofWord? w.value = some o := by
          simpa [isPath, hw, Option.isSome_iff_exists] using hpath
        have hfirst : expression (w :: ws) = .operator o :: parts 0 ws := by
          rw [expression, List.dropWhile_cons_of_neg (by simp [hpath]), parts,
            readPart_of_operator ho]
        exact ⟨o, hfirst ▸ List.mem_cons_self⟩

/-- **Operators.** For every table, every target and every `find`: that a stage with an operator
stays as it is holds exactly if only paths are listed as start paths, or if the stage has no listing.
If only paths are listed, a stage that is changed becomes the listing of its start paths with the
tests of its expression, in order, and a file passes the expression exactly if all these tests
hold. -/
theorem operators_respected_iff (r : StageConverter) {stage : Text} {inv : Invocation}
    (hinv : Invocation.ofTagged? stage (tagStage stage) = some inv) (hname : inv.name = "find") :
    (((∃ o, Part.operator o ∈ expression inv.words) → r.convertStage stage = stage) ↔
      (∀ word ∈ listedPaths inv.words, isPath word = true) ∨ ¬Listable r stage inv) ∧
    ((∀ word ∈ listedPaths inv.words, isPath word = true) → r.convertStage stage ≠ stage →
      (∃ action, r.convertStage stage = inv.finish (listing
        ((startPaths inv.words).map (·.value)) (tests (expression inv.words)) action)) ∧
      ∀ holds v, Passes holds (expression inv.words) v ↔
        v = (tests (expression inv.words)).all holds) := by
  have hchanged : r.convertStage stage ≠ stage ↔ Listable r stage inv := by
    rw [ne_eq, convertStage_eq_iff hinv hname, not_not]
  refine ⟨⟨fun hkept => ?_, ?_⟩, fun hpaths hne => ?_⟩
  · by_contra hnot
    obtain ⟨hlost, hlistable⟩ := not_or.mp hnot
    obtain ⟨word, hmem, hword⟩ : ∃ word ∈ listedPaths inv.words, isPath word = false := by
      simpa using hlost
    exact hchanged.mpr (not_not.mp hlistable) (hkept (exists_operator hmem hword))
  · rintro (hpaths | hnot) ⟨o, ho⟩
    · refine (convertStage_eq_iff hinv hname).mpr fun hlistable => ?_
      rw [(startPaths_eq hpaths).2] at ho
      exact operator_notMem hlistable.primaries o ho
    · exact (convertStage_eq_iff hinv hname).mpr hnot
  · obtain ⟨hstart, hexpression⟩ := startPaths_eq hpaths
    have hlistable := hchanged.mp hne
    rw [hstart, hexpression]
    exact ⟨hlistable.exists_listing hinv hname, fun _ v => passes_iff hlistable.primaries v⟩

/-- The invocation of a stage that has one. -/
def invocationOf (stage : Text) : Invocation :=
  (Invocation.ofTagged? stage (tagStage stage)).getD ⟨[], stage, [], []⟩

/-- A negation behind the first flag keeps the stage as it is. Without it, the listing has both
tests; a word of the command that is run is no operator. -/
theorem operators_respected_cleanup :
    let r : StageConverter := ⟨.builtin, .powerShell (some 7)⟩
    let negated : Text := "find src -type f ! -name '*.c' -delete"
    let plain : Text := "find src lib -type f -name '*.o' -exec test ! -s \x7b\x7d \\;"
    Invocation.ofTagged? negated (tagStage negated) = some (invocationOf negated) ∧
      Part.operator .not ∈ expression (invocationOf negated).words ∧
      r.convertStage negated = negated ∧
      Invocation.ofTagged? plain (tagStage plain) = some (invocationOf plain) ∧
      (∃ action, r.convertStage plain = listing ["src", "lib"] [.file, .name "*.o"] action) ∧
      ∀ holds v, Passes holds (expression (invocationOf plain).words) v ↔
        v = (holds .file && holds (.name "*.o")) := by
  intro r negated plain
  obtain ⟨hnegated, hnegatedName, hnegatedPaths, hoperator⟩ :
      Invocation.ofTagged? negated (tagStage negated) = some (invocationOf negated) ∧
        (invocationOf negated).name = "find" ∧
        (∀ word ∈ listedPaths (invocationOf negated).words, isPath word = true) ∧
        Part.operator .not ∈ expression (invocationOf negated).words := by decide +kernel
  have hkept := (operators_respected_iff r hnegated hnegatedName).1.mpr (.inl hnegatedPaths)
    ⟨.not, hoperator⟩
  obtain ⟨hplain, hplainName, hplainPaths, hchanged⟩ :
      Invocation.ofTagged? plain (tagStage plain) = some (invocationOf plain) ∧
        (invocationOf plain).name = "find" ∧
        (∀ word ∈ listedPaths (invocationOf plain).words, isPath word = true) ∧
        r.convertStage plain ≠ plain := by decide +kernel
  obtain ⟨⟨action, hlisting⟩, hpasses⟩ :=
    (operators_respected_iff r hplain hplainName).2 hplainPaths hchanged
  obtain ⟨hstart, htests, hredirects⟩ :
      (startPaths (invocationOf plain).words).map (·.value) = ["src".toList, "lib".toList] ∧
        tests (expression (invocationOf plain).words) = [.file, .name "*.o"] ∧
        (invocationOf plain).redirects = [] := by decide +kernel
  rw [hstart, htests, Invocation.finish, hredirects] at hlisting
  refine ⟨hnegated, hoperator, hkept, hplain, ⟨action, hlisting⟩, fun holds v => ?_⟩
  rw [hpasses holds v, htests]
  simp

/-- **A lost negation.** A file passes the expression of this stage if its name is not `x`, but the
listing that is deleted has the test of the name itself, and `!` among its start paths. -/
theorem negation_lost :
    let r : StageConverter := ⟨.builtin, .powerShell (some 7)⟩
    let stage : Text := "find . ! -name x -delete"
    Invocation.ofTagged? stage (tagStage stage) = some (invocationOf stage) ∧
      (invocationOf stage).name = "find" ∧
      Part.operator .not ∈ expression (invocationOf stage).words ∧
      (∀ holds, Passes holds (expression (invocationOf stage).words) (!holds (.name "x"))) ∧
      r.convertStage stage = listing [".", "!"] [.name "x"] "Remove-Item -Force" := by
  intro r stage
  obtain ⟨hinv, hname, hexpression, hconvert⟩ :
      Invocation.ofTagged? stage (tagStage stage) = some (invocationOf stage) ∧
        (invocationOf stage).name = "find" ∧
        expression (invocationOf stage).words =
          [.operator .not, .test (.name "x"), .action .delete] ∧
        r.convertStage stage = listing [".", "!"] [.name "x"] "Remove-Item -Force" := by
    decide +kernel
  refine ⟨hinv, hname, hexpression ▸ List.mem_cons_self, fun holds => ?_, hconvert⟩
  have htest : Means holds .factor [.test (.name "x")] (holds (.name "x")) := .test _
  have hterm := htest.negation.factor.juxtaposed (.action .delete)
  rw [Bool.and_true] at hterm
  rw [hexpression]
  exact .inr hterm.term

end CrossShell.Find
