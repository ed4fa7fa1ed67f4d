import CrossShell.Proofs.Find.Expression
import CrossShell.Proofs.Stage.PlainCommand

/-!
# What becomes of a `find`

A `find` is converted to a listing that is filtered by options, with a pipeline stage for the action
behind it. The words in front of the first flag are listed as start paths.

* `listing`: the command that a `find` becomes.
* `Listable`: the stages that become one.
* `Listable.exists_listing`, `convertStage_eq_iff`: exactly these do, and all others stay as they are.
-/

namespace CrossShell

/-! ## The front of a converted command -/

theorem Text.prefix_join (sep t : Text) (ts : List Text) : t <+: join sep (t :: ts) := by
  cases ts with
  | nil => exact List.prefix_refl t
  | cons u ts =>
    rw [join, List.append_assoc]
    exact List.prefix_append ..

theorem prefix_appendWord (line word : Text) : line <+: appendWord line word := by
  unfold appendWord
  split
  · exact List.prefix_refl line
  split
  · rename_i hempty
    rw [List.isEmpty_iff.mp hempty]
    exact List.nil_prefix
  split
  · exact List.prefix_append ..
  · rw [List.append_assoc]
    exact List.prefix_append ..

theorem prefix_joinWords (word : Text) (words : List Text) :
    word <+: joinWords (word :: words) := by
  have hrun (line : Text) : line <+: words.foldl appendWord line := by
    induction words generalizing line with
    | nil => exact List.prefix_refl line
    | cons word words ih => exact (prefix_appendWord line word).trans (ih _)
  have hfirst : appendWord [] word = word := by cases word <;> rfl
  rw [joinWords, List.foldl_cons, hfirst]
  exact hrun word

/-- A finished command starts as its body does, or by reading a file. -/
theorem Invocation.prefix_finish (inv : Invocation) (body : Text) :
    body <+: inv.finish body ∨ "Get-Content ".toList <+: inv.finish body := by
  unfold finish
  split
  · exact .inl (List.prefix_refl body)
  · simp only
    split
    · rw [List.append_assoc, List.append_assoc]
      exact .inr (List.prefix_append ..)
    · exact .inl (prefix_joinWords ..)

namespace Find

/-- The words that are listed as start paths. -/
def listedPaths (words : List TaggedToken) : List TaggedToken := words.takeWhile (!·.isFlag)

/-- The parts from the first flag on. -/
def listedParts (words : List TaggedToken) : List Part := parts 0 (words.dropWhile (!·.isFlag))

theorem listedPaths_cons {w : TaggedToken} (hw : w.isFlag = false) (ws : List TaggedToken) :
    listedPaths (w :: ws) = w :: listedPaths ws := by
  simp [listedPaths, hw]

/-- All files below start paths. -/
def search (paths : List Text) : Text := "Get-ChildItem -Path " ++ pathList paths ++ " -Recurse"

/-- The files below start paths that pass tests, and what happens to them. -/
def listing (paths : List Text) (ts : List Test) (action : Text) : Text :=
  Text.join " " (search paths :: ts.map Test.option) ++ " | " ++ action

/-- A stage becomes a listing: the target needs conversion, the stage is neither a group nor does it
read a here-document, its flags up to the first `-exec` are words of tests and actions, and from the
first flag on there are only tests and actions. -/
structure Listable (r : StageConverter) (stage : Text) (inv : Invocation) : Prop where
  needsConversion : r.target.needsConversion = true
  not_grouped : isGrouped stage = false
  no_heredoc : ∀ t ∈ tagStage stage, t.token.isHeredoc = false
  accepted : ∀ flag ∈ Special.upThrough "-exec" inv.flags, flag ∈ primaryWords
  primaries : ∀ p ∈ listedParts inv.words, p.isPrimary = true

/-! ## Flags -/

theorem fits_iff {flag : Text} : Special.fits .find flag = true ↔ flag ∈ primaryWords := by
  have hpatterns : Special.flagPatterns .find = primaryWords.map .exact := rfl
  rw [Special.fits, hpatterns, List.any_map, List.any_eq_true]
  simp only [Function.comp_apply, FlagPattern.accepts, beq_iff_eq, exists_eq_right]

/-- No cluster of short flags is accepted, since every accepted flag is long. -/
theorem acceptsFlag_iff {flag : Text} :
    Special.acceptsFlag .find flag = true ↔ flag ∈ primaryWords := by
  have hlong : ∀ f ∈ primaryWords, 2 < f.length := by decide
  have hshort (c : Char) : ¬Special.fits .find ['-', c] = true := by
    rw [fits_iff]
    intro hmem
    exact absurd (hlong _ hmem) (by simp)
  unfold Special.acceptsFlag
  rw [Bool.or_eq_true, fits_iff]
  refine or_iff_left ?_
  split
  · rename_i cluster
    cases cluster with
    | nil => simp
    | cons c cluster => simp [hshort c]
  · simp

theorem unsupportedFlags_isEmpty_iff {inv : Invocation} :
    (Special.unsupportedFlags .find inv).isEmpty = true ↔
      ∀ flag ∈ Special.upThrough "-exec" inv.flags, flag ∈ primaryWords := by
  have hown : Special.ownFlags .find inv = Special.upThrough "-exec" inv.flags := rfl
  rw [Special.unsupportedFlags, hown, List.isEmpty_iff, List.filter_eq_nil_iff]
  simp only [Bool.not_eq_true', Bool.not_eq_false, acceptsFlag_iff]

/-! ## Conversion -/

section

variable {r : StageConverter} {stage : Text} {inv : Invocation}

theorem convertFind?_eq (nested : Nested) : convertFind? nested inv =
    ((listedParts inv.words).foldlM (Part.extend? nested inv) {}).map fun plan =>
      inv.finish (Text.join " " (search ((listedPaths inv.words).map (·.value)) :: plan.options) ++
        " | " ++ plan.action.getD "Select-Object -ExpandProperty FullName") := by
  rw [listedParts, ← planFind?_eq, convertFind?]
  cases planFind? nested inv 0 {} (inv.words.dropWhile (!·.isFlag)) <;> rfl

theorem convertInvocation?_eq (hname : inv.name = "find") (nested : Nested) :
    r.convertInvocation? nested inv =
      if (Special.unsupportedFlags .find inv).isEmpty then convertFind? nested inv else none := by
  have hspecial : Special.ofName? inv.name = some .find := by
    rw [hname]
    decide
  rw [StageConverter.convertInvocation?, hspecial]
  rfl

/-- A stage that fits becomes a listing. -/
theorem Listable.exists_listing (h : Listable r stage inv)
    (hinv : Invocation.ofTagged? stage (tagStage stage) = some inv) (hname : inv.name = "find") :
    ∃ action, r.convertStage stage = inv.finish
      (listing ((listedPaths inv.words).map (·.value)) (tests (listedParts inv.words)) action) := by
  have hnested : ∀ line, (r.nestedAt maxDepth line).isSome = true := fun _ => rfl
  obtain ⟨action, hplan⟩ := exists_plan inv hnested h.primaries {}
  have hinvocation : r.convertInvocation? (r.nestedAt maxDepth) inv =
      some (inv.finish (listing ((listedPaths inv.words).map (·.value))
        (tests (listedParts inv.words))
        (action.getD "Select-Object -ExpandProperty FullName"))) := by
    rw [convertInvocation?_eq hname, if_pos (unsupportedFlags_isEmpty_iff.mpr h.accepted),
      convertFind?_eq, hplan]
    rfl
  have hstage := StageConverter.convertStage?_eq_some_iff.mpr
    ⟨h.needsConversion, h.not_grouped, h.no_heredoc, inv, hinv, hinvocation⟩
  rw [StageConverter.convertStage, StageConverter.convertStageAt_eq, hstage]
  exact ⟨_, rfl⟩

/-- Only a stage that fits has a counterpart. -/
theorem listable_of_convertStage? {nested : Nested} {text : Text}
    (h : r.convertStage? nested stage = some text)
    (hinv : Invocation.ofTagged? stage (tagStage stage) = some inv) (hname : inv.name = "find") :
    Listable r stage inv := by
  obtain ⟨hneeds, hgroup, hheredoc, inv', hinv', hconvert⟩ :=
    StageConverter.convertStage?_eq_some_iff.mp h
  obtain rfl : inv = inv' := Option.some.inj (hinv.symm.trans hinv')
  rw [convertInvocation?_eq hname] at hconvert
  split at hconvert
  · rename_i hflags
    refine ⟨hneeds, hgroup, hheredoc, unsupportedFlags_isEmpty_iff.mp hflags, fun p hp => ?_⟩
    by_contra hnot
    rw [convertFind?_eq, foldlM_extend?_eq_none inv hp (by simpa using hnot)] at hconvert
    cases hconvert
  · cases hconvert

/-! ## Stages that stay as they are -/

/-- The two commands that a converted `find` may start with. -/
def frontWords : List PlainWord :=
  [⟨"Get-ChildItem".toList, by decide, by decide⟩, ⟨"Get-Content".toList, by decide, by decide⟩]

theorem exists_frontWord (inv : Invocation) (paths : List Text) (ts : List Test) (action : Text) :
    ∃ w ∈ frontWords, ∃ rest, inv.finish (listing paths ts action) = w.text ++ ' ' :: rest := by
  have hlisting : "Get-ChildItem ".toList <+: listing paths ts action := by
    have hsearch : "Get-ChildItem ".toList <+: search paths :=
      ⟨"-Path ".toList ++ pathList paths ++ " -Recurse".toList, rfl⟩
    have hoptions := Text.prefix_join " " (search paths) (ts.map Test.option)
    rw [listing, List.append_assoc]
    exact (hsearch.trans hoptions).trans (List.prefix_append ..)
  rcases inv.prefix_finish (listing paths ts action) with hbody | hinput
  · obtain ⟨rest, hrest⟩ := hlisting.trans hbody
    exact ⟨_, List.mem_cons_self, rest, hrest.symm⟩
  · obtain ⟨rest, hrest⟩ := hinput
    exact ⟨_, List.mem_cons_of_mem _ List.mem_cons_self, rest, hrest.symm⟩

/-- A `find` is changed exactly if it fits: a converted one has another command word. -/
theorem convertStage_eq_iff (hinv : Invocation.ofTagged? stage (tagStage stage) = some inv)
    (hname : inv.name = "find") : r.convertStage stage = stage ↔ ¬Listable r stage inv := by
  constructor
  · intro heq h
    obtain ⟨action, hlisting⟩ := h.exists_listing hinv hname
    obtain ⟨w, hw, rest, hfront⟩ := exists_frontWord inv
      ((listedPaths inv.words).map (·.value)) (tests (listedParts inv.words)) action
    have hother : ∀ w ∈ frontWords, w.text ≠ "find" := by decide
    rw [← heq, hlisting, hfront] at hinv
    exact hother w hw ((w.name_of_ofTagged? hinv).symm.trans hname)
  · intro hnot
    rw [StageConverter.convertStage, StageConverter.convertStageAt_eq]
    cases hconvert : r.convertStage? (r.nestedAt maxDepth) stage with
    | none => rfl
    | some text => exact absurd (listable_of_convertStage? hconvert hinv hname) hnot

end

end Find

end CrossShell
