import CrossShell.Proofs.Chain.Statement
import CrossShell.Proofs.Special.Given
import CrossShell.Proofs.Stage.Finish
import CrossShell.Proofs.Text.Literal

/-!
# Scripts and patterns given with `-e`

`sed` and `grep` take any number of scripts or patterns, each behind an `-e`. A conversion has room
for one: the value of the first `-e`, or the first word that is no flag if it sees none.

* `givenScripts`: the scripts or patterns that are given.
* `edited`, `searched`: the commands that `sed` and `grep` become, with any number of them.
* `ScriptsKept`, `PatternsKept`: a command has all of them.
* `scripts_kept_iff`: exactly if there is no other than the one that is taken.
-/

namespace CrossShell

/-- The scripts or patterns that words give with `-e`. -/
def givenScripts (inv : Invocation) : List Text :=
  valuesOf 'e' (readWords ['e'] none inv.words).1

/-- The words that are neither options nor their values. -/
def givenFiles (inv : Invocation) : List Text := (readWords ['e'] none inv.words).2

/-- If `-e` always stands alone, the first script or pattern is taken, with the right files. -/
theorem scriptAndFiles?_of_standsAlone {inv : Invocation} {script : Text} {files : List Text}
    (h : StandsAlone 'e' inv.words) (hgiven : givenScripts inv ≠ [])
    (hread : scriptAndFiles? inv = some (script, files)) :
    (givenScripts inv).head? = some script ∧ files = givenFiles inv := by
  have hvalue : inv.optionValue? "-e" = (givenScripts inv).head? :=
    Invocation.optionIn?_eq (by decide) h
  have hfiles : inv.positionals ["-e"] = givenFiles inv :=
    Invocation.positionalsIn_eq (by decide) h none
  obtain ⟨s, ss, hs⟩ := List.exists_cons_of_ne_nil hgiven
  unfold scriptAndFiles? at hread
  rw [hvalue, hfiles, hs] at hread
  rw [hs]
  simpa [eq_comm] using hread

/-! ## `sed` -/

/-- The lines of files, edited by a stage. With `-i` they are written back. -/
def edited (inv : Invocation) (files : List Text) (body : Text) : Text :=
  if inv.hasShort 'i' then
    "(Get-Content " ++ commaList files ++ ") | " ++ body ++ " | Set-Content " ++ commaList files
  else withInput files body

theorem edited_injective (inv : Invocation) (files : List Text) :
    Function.Injective (edited inv files) := by
  intro a b h
  unfold edited at h
  split at h
  · rw [List.append_left_inj, List.append_left_inj, List.append_right_inj] at h
    exact h
  · unfold withInput at h
    split at h
    · exact h
    · exact List.append_cancel_left h

/-- A `sed` that has a counterpart edits by the stage of the script that is taken. -/
theorem exists_edited {inv : Invocation} {text : Text} (h : convertSed? inv = some text) :
    ∃ script files body, scriptAndFiles? inv = some (script, files) ∧
      scriptStage? inv (Text.unquote script) = some body ∧
      text = inv.finish (edited inv files body) := by
  unfold convertSed? at h
  obtain ⟨⟨script, files⟩, hread, h⟩ := Option.bind_eq_some_iff.mp h
  obtain ⟨body, hbody, h⟩ := Option.bind_eq_some_iff.mp h
  refine ⟨script, files, body, hread, hbody, ?_⟩
  unfold edited
  split at h
  · rename_i hplace
    rw [if_pos hplace]
    split at h
    · exact (Option.some.inj h).symm
    · cases h
  · rename_i hplace
    rw [if_neg hplace]
    exact (Option.some.inj h).symm

theorem sealed_forEachItem {body : Text} (h : Text.Sealed '|' body) :
    Text.Sealed '|' (forEachItem body) :=
  .append (by decide) (.append (.append (by decide) h) (by decide))

theorem Substitution.sealed_text (s : Substitution) (extended : Bool) :
    Text.Sealed '|' (s.text extended) := by
  have hquoted := Text.sealed_singleQuoted '|'
  unfold text
  refine sealed_forEachItem ?_
  cases s.everywhere <;> cases s.ignoresCase
  · exact .append (.append (.append (.append (by decide) (hquoted _)) (by decide)) (hquoted _))
      (by decide)
  · exact .append (.append (.append (.append (by decide) (hquoted _)) (by decide)) (hquoted _))
      (by decide)
  · exact .append (.append (.append (by decide) (hquoted _)) (by decide)) (hquoted _)
  · exact .append (.append (.append (by decide) (hquoted _)) (by decide)) (hquoted _)

/-- No stage of a script is a pipeline of several. -/
theorem sealed_scriptStage? {inv : Invocation} {script body : Text}
    (h : scriptStage? inv script = some body) : Text.Sealed '|' body := by
  unfold scriptStage? at h
  split at h
  · obtain ⟨selection, -, rfl⟩ := Option.map_eq_some_iff.mp h
    have hnumber (n : Nat) : Text.Sealed '|' (Text.ofNat n) := Text.sealed_ofNat (by decide) n
    cases selection with
    | first n => exact .append (by decide) (hnumber n)
    | last n => exact .append (by decide) (hnumber n)
    | skip n => exact .append (by decide) (hnumber n)
    | index i => exact .append (by decide) (hnumber i)
    | range i j =>
      exact .append (.append (.append (.append (by decide) (hnumber i)) (by decide)) (hnumber j))
        (by decide)
  · obtain ⟨s, -, rfl⟩ := Option.map_eq_some_iff.mp h
    exact s.sealed_text _

/-- The lines of files go through the stage of each script, in order. -/
def ScriptsKept (inv : Invocation) (files scripts : List Text) (text : Text) : Prop :=
  ∃ stages, scripts.map (fun s => scriptStage? inv (Text.unquote s)) = stages.map some ∧
    text = inv.finish (edited inv files (Text.join " | " stages))

/-- A command that edits by one stage keeps one script, and that must have this stage. -/
theorem scriptsKept_iff {inv : Invocation} {files scripts : List Text} {script body : Text}
    (hbody : scriptStage? inv script = some body) (hscripts : scripts ≠ []) :
    ScriptsKept inv files scripts (inv.finish (edited inv files body)) ↔
      ∃ s, scripts = [s] ∧ scriptStage? inv (Text.unquote s) = some body := by
  constructor
  · rintro ⟨stages, hstages, htext⟩
    have hjoin : body = Text.join " | " stages :=
      edited_injective inv files (inv.finish_injective htext)
    have hlength : scripts.length = stages.length := by simpa using congrArg List.length hstages
    have hsealed : ∀ stage ∈ stages, Text.Sealed '|' stage := by
      intro stage hmem
      have hsome : some stage ∈ stages.map some := List.mem_map_of_mem hmem
      rw [← hstages] at hsome
      obtain ⟨s, -, hs⟩ := List.mem_map.mp hsome
      exact sealed_scriptStage? hs
    have hone := Text.length_le_one_of_sealed_join (by decide) hsealed
      (hjoin ▸ sealed_scriptStage? hbody)
    have hpos := List.length_pos_iff.mpr hscripts
    obtain ⟨s, rfl⟩ := List.length_eq_one_iff.mp (show scripts.length = 1 by omega)
    obtain ⟨stage, rfl⟩ := List.length_eq_one_iff.mp (show stages.length = 1 by omega)
    refine ⟨s, rfl, ?_⟩
    rw [hjoin]
    exact (List.cons.inj hstages).1
  · rintro ⟨s, rfl, hs⟩
    exact ⟨[body], by rw [List.map_cons, hs]; rfl, rfl⟩

/-! ## `grep` -/

/-- The switches of `Select-String`. -/
def searchSwitches (target : Target) (inv : Invocation) (paths : List Text) : List Text :=
  (searchArguments target inv [] paths).tail

/-- The files of a tree that are searched, in front of the search. -/
def searchedTree (inv : Invocation) (paths : List Text) : Text :=
  if searchesTree inv then "Get-ChildItem -Path " ++ pathList paths ++ " -Recurse -File | " else []

/-- The files that are searched one by one, behind the patterns. -/
def searchedFiles (inv : Invocation) (paths : List Text) : Text :=
  if searchesTree inv || paths.isEmpty then [] else " -Path " ++ commaList paths

/-- What is shown of the lines that match. -/
def shownMatches (inv : Invocation) : Text :=
  if inv.hasShort 'l' then " | Select-Object -ExpandProperty Path"
  else if inv.hasShort 'c' then " | Measure-Object | Select-Object -ExpandProperty Count"
  else ""

/-- A search for the lines that match one of several patterns. -/
def searched (target : Target) (inv : Invocation) (patterns paths : List Text) : Text :=
  searchedTree inv paths ++ "Select-String -Pattern " ++
    commaList (patterns.map Text.singleQuoted) ++
    ((searchSwitches target inv paths).flatMap (" ".toList ++ ·) ++ searchedFiles inv paths ++
      shownMatches inv)

/-- A `grep` searches for the pattern that is taken. -/
theorem convertGrep?_eq (target : Target) (inv : Invocation) : convertGrep? target inv =
    (scriptAndFiles? inv).map fun (script, paths) =>
      inv.finish (searched target inv [searchPattern inv (Text.unquote script)] paths) := by
  unfold convertGrep?
  rcases scriptAndFiles? inv with _ | ⟨script, paths⟩
  · rfl
  · have hsearch : "Select-String ".toList ++
          Text.join " " (searchArguments target inv (Text.unquote script) paths) =
        "Select-String -Pattern ".toList ++
          (Text.singleQuoted (searchPattern inv (Text.unquote script)) ++
            (searchSwitches target inv paths).flatMap (" ".toList ++ ·)) := by
      have harguments : searchArguments target inv (Text.unquote script) paths =
          ("-Pattern ".toList ++ Text.singleQuoted (searchPattern inv (Text.unquote script))) ::
            searchSwitches target inv paths := rfl
      rw [harguments, Text.join_cons, List.append_assoc, ← List.append_assoc]
      rfl
    simp only [Option.bind_eq_bind, Option.bind_some, Option.map_some, hsearch]
    show some (inv.finish _) = some (inv.finish _)
    unfold searched searchedTree searchedFiles
    congr 2
    cases searchesTree inv <;> cases paths.isEmpty <;>
      simp only [Bool.or_true, Bool.or_false, Bool.false_eq_true, if_true, if_false,
        List.append_assoc, List.nil_append] <;>
      rfl

/-- The search is for each of the patterns, among others perhaps. -/
def PatternsKept (target : Target) (inv : Invocation) (paths scripts : List Text) (text : Text) :
    Prop :=
  ∃ patterns, text = inv.finish (searched target inv patterns paths) ∧
    ∀ s ∈ scripts, searchPattern inv (Text.unquote s) ∈ patterns

/-- A list of literals that is one literal has no other. -/
theorem eq_singleton_of_commaList {patterns : List Text} {pattern : Text}
    (h : commaList (patterns.map Text.singleQuoted) = Text.singleQuoted pattern) :
    patterns = [pattern] := by
  have hsealed : Text.Sealed ',' (commaList (patterns.map Text.singleQuoted)) := by
    rw [h]
    exact Text.sealed_singleQuoted ',' pattern
  have hitems : ∀ t ∈ patterns.map Text.singleQuoted, Text.Sealed ',' t := by
    intro t ht
    obtain ⟨p, -, rfl⟩ := List.mem_map.mp ht
    exact Text.sealed_singleQuoted ',' p
  have hone := Text.length_le_one_of_sealed_join (by decide) hitems hsealed
  match patterns with
  | [] => cases h
  | [p] => rw [Text.singleQuoted_injective h]
  | _ :: _ :: _ => simp at hone

theorem searched_injective (target : Target) (inv : Invocation) (paths : List Text)
    {patterns : List Text} {pattern : Text}
    (h : searched target inv [pattern] paths = searched target inv patterns paths) :
    patterns = [pattern] := by
  unfold searched at h
  rw [List.append_left_inj, List.append_right_inj] at h
  exact eq_singleton_of_commaList h.symm

/-- A search for one pattern keeps patterns only if all are this one. -/
theorem patternsKept_iff {target : Target} {inv : Invocation} {paths scripts : List Text}
    {pattern : Text} :
    PatternsKept target inv paths scripts (inv.finish (searched target inv [pattern] paths)) ↔
      ∀ s ∈ scripts, searchPattern inv (Text.unquote s) = pattern := by
  constructor
  · rintro ⟨patterns, htext, hmem⟩ s hs
    rw [searched_injective target inv paths (inv.finish_injective htext)] at hmem
    exact List.mem_singleton.mp (hmem s hs)
  · intro h
    exact ⟨[pattern], rfl, fun s hs => List.mem_singleton.mpr (h s hs)⟩

/-! ## Stages -/

section

variable {r : StageConverter} {depth : Nat} {stage : Text} {inv : Invocation}

/-- A `sed` that is changed edits by the stage of the script that is taken. -/
theorem exists_edited_stage (hinv : Invocation.ofTagged? stage (tagStage stage) = some inv)
    (hname : inv.name = "sed") (hchanged : r.convertStageAt depth stage ≠ stage) :
    ∃ script files body, scriptAndFiles? inv = some (script, files) ∧
      scriptStage? inv (Text.unquote script) = some body ∧
      r.convertStageAt depth stage = inv.finish (edited inv files body) := by
  have hspecial : Special.ofName? inv.name = some .sed := by
    rw [hname]
    decide
  exact exists_edited (StageConverter.counterpart?_of_changed hinv hspecial hchanged)

/-- A `grep` that is changed searches for the pattern that is taken. -/
theorem exists_searched_stage (hinv : Invocation.ofTagged? stage (tagStage stage) = some inv)
    (hname : inv.name = "grep") (hchanged : r.convertStageAt depth stage ≠ stage) :
    ∃ script files, scriptAndFiles? inv = some (script, files) ∧
      r.convertStageAt depth stage = inv.finish
        (searched r.target inv [searchPattern inv (Text.unquote script)] files) := by
  have hspecial : Special.ofName? inv.name = some .grep := by
    rw [hname]
    decide
  have hconvert : convertGrep? r.target inv = some (r.convertStageAt depth stage) :=
    StageConverter.counterpart?_of_changed hinv hspecial hchanged
  rw [convertGrep?_eq] at hconvert
  obtain ⟨⟨script, files⟩, hread, htext⟩ := Option.map_eq_some_iff.mp hconvert
  exact ⟨script, files, hread, htext.symm⟩

end

/-- **Scripts and patterns.** For every table, every target and every `sed` or `grep` that is given
a script or pattern with `-e` and is changed, one script or pattern is taken. A `sed` keeps all that
are given, in order, exactly if there is one and it has the stage of the one that is taken. A `grep`
keeps all as alternatives exactly if each is searched for as the one that is taken. If `-e` always
stands alone, the first one is taken, and the files are those that are written. -/
theorem scripts_kept_iff (r : StageConverter) (depth : Nat) {stage : Text} {inv : Invocation}
    (hinv : Invocation.ofTagged? stage (tagStage stage) = some inv)
    (hname : inv.name = "sed" ∨ inv.name = "grep") (hgiven : givenScripts inv ≠ [])
    (hchanged : r.convertStageAt depth stage ≠ stage) :
    ∃ script files, scriptAndFiles? inv = some (script, files) ∧
      (inv.name = "sed" →
        (ScriptsKept inv files (givenScripts inv) (r.convertStageAt depth stage) ↔
          ∃ s, givenScripts inv = [s] ∧
            scriptStage? inv (Text.unquote s) = scriptStage? inv (Text.unquote script))) ∧
      (inv.name = "grep" →
        (PatternsKept r.target inv files (givenScripts inv) (r.convertStageAt depth stage) ↔
          ∀ s ∈ givenScripts inv,
            searchPattern inv (Text.unquote s) = searchPattern inv (Text.unquote script))) ∧
      (StandsAlone 'e' inv.words →
        (givenScripts inv).head? = some script ∧ files = givenFiles inv) := by
  rcases hname with hsed | hgrep
  · obtain ⟨script, files, body, hread, hbody, htext⟩ := exists_edited_stage hinv hsed hchanged
    refine ⟨script, files, hread, fun _ => ?_, fun hgrep => ?_,
      fun halone => scriptAndFiles?_of_standsAlone halone hgiven hread⟩
    · rw [htext, hbody]
      exact scriptsKept_iff hbody hgiven
    · exact absurd (hsed.symm.trans hgrep) (by decide)
  · obtain ⟨script, files, hread, htext⟩ := exists_searched_stage hinv hgrep hchanged
    refine ⟨script, files, hread, fun hsed => ?_, fun _ => ?_,
      fun halone => scriptAndFiles?_of_standsAlone halone hgiven hread⟩
    · exact absurd (hsed.symm.trans hgrep) (by decide)
    · rw [htext]
      exact patternsKept_iff

/-- A `sed` that is given its script by the last letter of a cluster. -/
def printInvocation : Invocation :=
  ⟨"sed", "sed -ne 2p notes > out",
    [⟨⟨"-ne", 4, 7, none⟩, .flag⟩, ⟨⟨"2p", 8, 10, none⟩, .argument⟩,
      ⟨⟨"notes", 11, 16, none⟩, .argument⟩],
    [">", "out"]⟩

/-- A `grep` that is given one pattern twice, once in quotes. -/
def searchInvocation : Invocation :=
  ⟨"grep", "grep -n -e a -e 'a' f",
    [⟨⟨"-n", 5, 7, none⟩, .flag⟩, ⟨⟨"-e", 8, 10, none⟩, .flag⟩, ⟨⟨"a", 11, 12, none⟩, .argument⟩,
      ⟨⟨"-e", 13, 15, none⟩, .flag⟩, ⟨⟨"'a'", 16, 19, some .single⟩, .argument⟩,
      ⟨⟨"f", 20, 21, none⟩, .argument⟩], []⟩

/-- The script in the cluster is kept, and so are two patterns that are the same. -/
theorem scripts_kept_single :
    let r : StageConverter := ⟨.builtin, .powerShell (some 7)⟩
    Invocation.ofTagged? printInvocation.stage (tagStage printInvocation.stage) =
        some printInvocation ∧
      givenScripts printInvocation = ["2p".toList] ∧
      ScriptsKept printInvocation ["notes"] ["2p"] (r.convertStageAt 8 printInvocation.stage) ∧
      Invocation.ofTagged? searchInvocation.stage (tagStage searchInvocation.stage) =
        some searchInvocation ∧
      givenScripts searchInvocation = ["a".toList, "'a'".toList] ∧
      PatternsKept r.target searchInvocation ["f"] ["a", "'a'"]
        (r.convertStageAt 8 searchInvocation.stage) := by
  intro r
  obtain ⟨hinv, hname, hgiven, hchanged, hread⟩ :
      Invocation.ofTagged? printInvocation.stage (tagStage printInvocation.stage) =
          some printInvocation ∧
        printInvocation.name = "sed" ∧ givenScripts printInvocation = ["2p".toList] ∧
        r.convertStageAt 8 printInvocation.stage ≠ printInvocation.stage ∧
        scriptAndFiles? printInvocation = some ("2p".toList, ["notes".toList]) := by decide +kernel
  obtain ⟨hinv', hname', hgiven', hchanged', hread'⟩ :
      Invocation.ofTagged? searchInvocation.stage (tagStage searchInvocation.stage) =
          some searchInvocation ∧
        searchInvocation.name = "grep" ∧
        givenScripts searchInvocation = ["a".toList, "'a'".toList] ∧
        r.convertStageAt 8 searchInvocation.stage ≠ searchInvocation.stage ∧
        scriptAndFiles? searchInvocation = some ("a".toList, ["f".toList]) := by decide +kernel
  obtain ⟨script, files, hfirst, hsed, -, -⟩ :=
    scripts_kept_iff r 8 hinv (.inl hname) (by rw [hgiven]; simp) hchanged
  obtain ⟨rfl, rfl⟩ := Prod.mk.inj (Option.some.inj (hread.symm.trans hfirst))
  obtain ⟨script', files', hfirst', -, hgrep, -⟩ :=
    scripts_kept_iff r 8 hinv' (.inr hname') (by rw [hgiven']; simp) hchanged'
  obtain ⟨rfl, rfl⟩ := Prod.mk.inj (Option.some.inj (hread'.symm.trans hfirst'))
  rw [hgiven] at hsed
  rw [hgiven'] at hgrep
  refine ⟨hinv, hgiven, (hsed hname).mpr ⟨_, rfl, rfl⟩, hinv', hgiven', (hgrep hname').mpr ?_⟩
  decide +kernel

/-- A `sed` with two scripts that edits in place. -/
def editInvocation : Invocation :=
  ⟨"sed", "sed -i -e s/a/b/ -e s/c/d/ f",
    [⟨⟨"-i", 4, 6, none⟩, .flag⟩, ⟨⟨"-e", 7, 9, none⟩, .flag⟩,
      ⟨⟨"s/a/b/", 10, 16, none⟩, .argument⟩, ⟨⟨"-e", 17, 19, none⟩, .flag⟩,
      ⟨⟨"s/c/d/", 20, 26, none⟩, .argument⟩, ⟨⟨"f", 27, 28, none⟩, .argument⟩], []⟩

/-- **A lost script.** The second script of this stage is neither run nor taken for a file; the file
is edited by the first one alone. -/
theorem second_script_lost :
    let r : StageConverter := ⟨.builtin, .powerShell (some 7)⟩
    Invocation.ofTagged? editInvocation.stage (tagStage editInvocation.stage) =
        some editInvocation ∧
      givenScripts editInvocation = ["s/a/b/".toList, "s/c/d/".toList] ∧
      givenFiles editInvocation = ["f".toList] ∧
      r.convertStage editInvocation.stage =
        "(Get-Content f) | ".toList ++ forEachItem "([regex]'a').Replace($_, 'b', 1)" ++
          " | Set-Content f".toList ∧
      ¬ScriptsKept editInvocation ["f"] (givenScripts editInvocation)
        (r.convertStage editInvocation.stage) := by
  intro r
  obtain ⟨hinv, hname, hgiven, hfiles, hconvert, hchanged, hread⟩ :
      Invocation.ofTagged? editInvocation.stage (tagStage editInvocation.stage) =
          some editInvocation ∧
        editInvocation.name = "sed" ∧
        givenScripts editInvocation = ["s/a/b/".toList, "s/c/d/".toList] ∧
        givenFiles editInvocation = ["f".toList] ∧
        r.convertStage editInvocation.stage =
          "(Get-Content f) | ".toList ++ forEachItem "([regex]'a').Replace($_, 'b', 1)" ++
            " | Set-Content f".toList ∧
        r.convertStageAt maxDepth editInvocation.stage ≠ editInvocation.stage ∧
        scriptAndFiles? editInvocation = some ("s/a/b/".toList, ["f".toList]) := by decide +kernel
  refine ⟨hinv, hgiven, hfiles, hconvert, fun hkept => ?_⟩
  obtain ⟨script, files, body, hfirst, hbody, htext⟩ := exists_edited_stage hinv hname hchanged
  obtain ⟨rfl, rfl⟩ := Prod.mk.inj (Option.some.inj (hread.symm.trans hfirst))
  rw [StageConverter.convertStage, htext] at hkept
  obtain ⟨s, hs, -⟩ := (scriptsKept_iff hbody (by rw [hgiven]; simp)).mp hkept
  rw [hgiven] at hs
  cases hs

end CrossShell
