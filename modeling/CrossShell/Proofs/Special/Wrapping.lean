import CrossShell.Proofs.Find.Actions
import CrossShell.Proofs.Special.Elevation
import CrossShell.Proofs.Special.Items
import CrossShell.Proofs.Stage.PlacedRedirects

/-!
# Redirections of commands that wrap others

`sudo`, `xargs` and `find` hand the text from the first to the last wrapped word on, with the
redirections that stand in between, and put the redirections of the whole stage around what they
make of it. A redirection between wrapped words is thus applied twice, unless it is an input that a
later one replaces.

* `wrappedWords`: the words of the command that a stage hands on.
* `exists_wrapped`: what a changed stage is made of.
* `AppliedOnce`: each redirection is handed on or put around, not both and not neither.
* `applied_once_iff`: this holds exactly if the redirections between wrapped words are the inputs
  that another one replaces.
-/

namespace CrossShell

/-! ## What a wrapper hands on -/

/-- The words of the command that is handed on. Of several runs of a `find` it is the last, if no
deletion comes behind it. -/
def wrappedWords (inv : Invocation) : Special → List TaggedToken
  | .superuser => inv.words.drop ((inv.commandIndex? []).getD inv.words.length)
  | .xargs => inv.words.drop ((inv.commandIndex? ["-I", "-n"]).getD inv.words.length)
  | .find =>
    match (Find.effects (Find.listedParts inv.words)).getLast? with
    | some (.exec first rest) => first :: rest
    | _ => []
  | _ => []

/-- The line that is made of the text of the wrapped words. -/
def wrappedLine (inv : Invocation) : Special → Text → Text
  | .xargs => itemLineFor (inv.optionValue? "-I")
  | .find => withFoundFile
  | _ => id

/-- What is made of the wrapped command when it is converted. -/
def wrapperBody (target : Target) (inv : Invocation) : Special → Text → Text
  | .superuser, command => elevated target command
  | .xargs, command => Xargs.perItem (inv.hasFlag "-0") command
  | .find, command => Find.listingOf inv (forEachItem command)
  | _, command => command

theorem Find.exec_subset_of_readPart {t first : TaggedToken} {ts rest : List TaggedToken}
    (h : (readPart t ts).1 = .action (.exec first rest)) : first :: rest ⊆ ts := by
  unfold readPart at h
  split at h
  · cases h
  split at h
  · cases h
  split at h
  · split at h
    · cases h
    · rename_i hrun
      split at h
      · cases h
      · cases h
        exact hrun ▸ List.takeWhile_subset _
  · split at h
    · cases h
    · split at h <;> cases h

/-- The words of a run are words of the command. -/
theorem Find.exec_subset {ws rest : List TaggedToken} {first : TaggedToken} {skip : Nat}
    (h : Part.action (.exec first rest) ∈ parts skip ws) : first :: rest ⊆ ws := by
  induction ws generalizing skip with
  | nil => cases skip <;> cases h
  | cons t ts ih =>
    cases skip with
    | succ skip => exact List.subset_cons_of_subset t (ih h)
    | zero =>
      rcases List.mem_cons.mp h with hfirst | hrest
      · exact List.subset_cons_of_subset t (exec_subset_of_readPart hfirst.symm)
      · exact List.subset_cons_of_subset t (ih hrest)

theorem wrappedWords_subset (inv : Invocation) (s : Special) : wrappedWords inv s ⊆ inv.words := by
  cases s with
  | superuser => exact List.drop_subset _ _
  | xargs => exact List.drop_subset _ _
  | find =>
    rw [wrappedWords]
    split
    · rename_i first rest hlast
      obtain ⟨p, hp, heffect⟩ := List.mem_filterMap.mp (List.mem_of_getLast? hlast)
      obtain rfl : p = .action (.exec first rest) := by
        unfold Find.Part.effect? at heffect
        split at heffect <;> cases heffect
        rfl
      exact fun w hw => (List.dropWhile_sublist _).subset (Find.exec_subset hp hw)
    · exact List.nil_subset _
  | _ => exact List.nil_subset _

/-- The commands that wrap others. -/
def wrappers : List Special := [.superuser, .xargs, .find]

theorem ofName?_of_mem_wrappers : ∀ s ∈ wrappers, Special.ofName? s.name = some s := by decide

section Stages

variable {r : StageConverter} {depth : Nat} {stage : Text} {inv : Invocation}

/-- A body that is finished, made of what the wrapped words become, if there are any. -/
def MadeOfWrapped (r : StageConverter) (depth : Nat) (inv : Invocation) (s : Special)
    (body : Text) : Prop :=
  ∀ text ∈ inv.textOf? (wrappedWords inv s), ∃ command,
    r.nestedAt depth (wrappedLine inv s text) = some command ∧
      body = wrapperBody r.target inv s command

theorem exists_wrapped_superuser
    (hconvert : convertSudo? r.target (r.nestedAt depth) inv =
      some (r.convertStageAt depth stage)) :
    ∃ body ≠ [], r.convertStageAt depth stage = inv.finish body ∧
      MadeOfWrapped r depth inv .superuser body := by
  rw [convertSudo?_eq] at hconvert
  obtain ⟨index, hindex, hconvert⟩ := Option.bind_eq_some_iff.mp hconvert
  obtain ⟨line, hline, hconvert⟩ := Option.bind_eq_some_iff.mp hconvert
  obtain ⟨command, hcommand, hout⟩ := Option.bind_eq_some_iff.mp hconvert
  have hwords : wrappedWords inv .superuser = inv.words.drop index := by
    rw [wrappedWords, hindex]
    rfl
  refine ⟨elevated r.target command, List.cons_ne_nil 'S' _, (Option.some.inj hout).symm, ?_⟩
  intro text htext
  rw [hwords] at htext
  obtain rfl : line = text := Option.some.inj (hline.symm.trans htext)
  exact ⟨command, hcommand, rfl⟩

theorem itemCommand?_of_text {text : Text}
    (h : text ∈ inv.textOf? (wrappedWords inv .xargs)) :
    itemCommand? inv = some (wrappedLine inv .xargs text) := by
  rw [wrappedWords] at h
  rw [itemCommand?]
  cases hindex : inv.commandIndex? ["-I", "-n"] with
  | none =>
    rw [hindex, Option.getD_none, List.drop_length] at h
    cases h
  | some index =>
    rw [hindex] at h
    have htext : inv.textFrom? index = some text := h
    simp only [htext, wrappedLine, itemLineFor]
    cases inv.optionValue? "-I" <;> rfl

theorem exists_wrapped_xargs
    (hconvert : convertXargs? (r.nestedAt depth) inv = some (r.convertStageAt depth stage)) :
    ∃ body ≠ [], r.convertStageAt depth stage = inv.finish body ∧
      MadeOfWrapped r depth inv .xargs body := by
  rw [Xargs.convertXargs?_eq] at hconvert
  obtain ⟨line, hline, hconvert⟩ := Option.bind_eq_some_iff.mp hconvert
  obtain ⟨command, hcommand, hout⟩ := Option.map_eq_some_iff.mp hconvert
  have hbody : wrapperBody r.target inv .xargs command ≠ [] :=
    List.append_ne_nil_of_right_ne_nil _ (List.cons_ne_nil 'F' _)
  refine ⟨_, hbody, hout.symm, fun text htext => ⟨command, ?_, rfl⟩⟩
  rw [itemCommand?_of_text htext] at hline
  rw [Option.some.inj hline]
  exact hcommand

theorem exists_wrapped_find
    (hinv : Invocation.ofTagged? stage (tagStage stage) = some inv) (hname : inv.name = "find")
    (hchanged : r.convertStageAt depth stage ≠ stage) :
    ∃ body ≠ [], r.convertStageAt depth stage = inv.finish body ∧
      MadeOfWrapped r depth inv .find body := by
  obtain ⟨action, hlisted, hlast⟩ := Find.exists_listed hinv hname hchanged
  refine ⟨_, ?_, hlisted, fun text htext => ?_⟩
  · exact List.append_ne_nil_of_left_ne_nil
      (List.append_ne_nil_of_right_ne_nil _ (List.cons_ne_nil ' ' _)) _
  rw [wrappedWords] at htext
  split at htext
  · rename_i first rest hexec
    obtain ⟨out, hout, rfl⟩ := hlast.exists_stage hexec
    unfold Find.Action.stage? execStage? at hout
    obtain ⟨line, hline, hout⟩ := Option.bind_eq_some_iff.mp hout
    obtain ⟨command, hcommand, hstage⟩ := Option.bind_eq_some_iff.mp hout
    obtain rfl : line = text := Option.some.inj (hline.symm.trans htext)
    refine ⟨command, hcommand, ?_⟩
    rw [← Option.some.inj hstage]
    rfl
  · cases htext

/-- A changed stage of a wrapper is the finished body that is made of its wrapped words. -/
theorem exists_wrapped {s : Special} (hs : s ∈ wrappers)
    (hinv : Invocation.ofTagged? stage (tagStage stage) = some inv) (hname : inv.name = s.name)
    (hchanged : r.convertStageAt depth stage ≠ stage) :
    ∃ body ≠ [], r.convertStageAt depth stage = inv.finish body ∧
      MadeOfWrapped r depth inv s body := by
  have hspecial : Special.ofName? inv.name = some s := by
    rw [hname]
    exact ofName?_of_mem_wrappers s hs
  have hconvert := StageConverter.counterpart?_of_changed hinv hspecial hchanged
  simp only [wrappers, List.mem_cons, List.not_mem_nil, or_false] at hs
  rcases hs with rfl | rfl | rfl
  · exact exists_wrapped_superuser hconvert
  · exact exists_wrapped_xargs hconvert
  · exact exists_wrapped_find hinv hname hchanged

end Stages

/-! ## Redirections between wrapped words -/

namespace PlacedRedirect

/-- The redirection stands in the text from the first to the last of some words. -/
def Inside (ws : List TaggedToken) (ρ : PlacedRedirect) : Prop :=
  ∃ first ∈ ws.head?, ∃ last ∈ ws.getLast?,
    first.token.start ≤ ρ.start ∧ ρ.stop ≤ last.token.stop

instance (ws : List TaggedToken) (ρ : PlacedRedirect) : Decidable (ρ.Inside ws) :=
  inferInstanceAs (Decidable (∃ _ ∈ ws.head?, ∃ _ ∈ ws.getLast?, _))

/-- The redirection stands before that text or behind it. -/
def Clear (ws : List TaggedToken) (ρ : PlacedRedirect) : Prop :=
  ∀ first ∈ ws.head?, ∀ last ∈ ws.getLast?,
    ρ.stop ≤ first.token.start ∨ last.token.stop ≤ ρ.start

end PlacedRedirect

/-- The text of words of a command cuts no redirection. -/
theorem inside_or_clear {stage : Text} {inv : Invocation} {ws : List TaggedToken}
    {ρ : PlacedRedirect} (hinv : Invocation.ofTagged? stage (tagStage stage) = some inv)
    (hws : ws ⊆ inv.words) (hρ : ρ ∈ placedRedirects stage) : ρ.Inside ws ∨ ρ.Clear ws := by
  have hord := inOrder_tokensAround stage
  have hmem {u : TaggedToken} (hu : u ∈ ws) :
      u ∈ (Invocation.sortTokens true false (tokensAround stage)).words :=
    (Invocation.sortTokens_tokensAround hinv).1.subset (hws hu)
  have hapart {u : TaggedToken} (hu : u ∈ ws) :
      u.token.stop ≤ ρ.start ∨ ρ.stop ≤ u.token.start :=
    apart_of_mem_words hord hρ (hmem hu)
  have hlt {u : TaggedToken} (hu : u ∈ ws) : u.token.start < u.token.stop :=
    hord.1 u.token (List.mem_map_of_mem (mem_of_mem_words (hmem hu)))
  by_cases hnil : ws = []
  · subst hnil
    exact .inr nofun
  have hfirst := List.head_mem hnil
  have hlast := List.getLast_mem hnil
  have hhead := List.head?_eq_some_head hnil
  have hgetLast := List.getLast?_eq_some_getLast hnil
  rcases hapart hfirst with hbehind | hbefore
  · rcases hapart hlast with hafter | hbefore
    · right
      intro first _ last hlast'
      obtain rfl := Option.some.inj (hgetLast.symm.trans hlast')
      exact .inr hafter
    · refine .inl ⟨_, hhead, _, hgetLast, ?_, ?_⟩
      · exact Nat.le_trans (Nat.le_of_lt (hlt hfirst)) hbehind
      · exact Nat.le_trans hbefore (Nat.le_of_lt (hlt hlast))
  · right
    intro first hfirst' last _
    obtain rfl := Option.some.inj (hhead.symm.trans hfirst')
    exact .inl hbefore

/-- Each redirection of a stage stands in the text of the wrapped words, which is handed on, or is
put around the wrapper: not both, and not neither. -/
def AppliedOnce (stage : Text) (ws : List TaggedToken) : Prop :=
  ∀ ρ ∈ placedRedirects stage, ρ.Inside ws ↔ ρ ∉ applied (placedRedirects stage)

instance (stage : Text) (ws : List TaggedToken) : Decidable (AppliedOnce stage ws) :=
  inferInstanceAs (Decidable (∀ _ ∈ _, _))

/-- **Redirections of a wrapper.** For every table, every target, every number of levels that are
left for wrapped commands and every changed stage of `sudo`, `xargs` or `find` with redirections
that are read as they are meant: the stage becomes what is made of the wrapped words, with the
redirections put around it one by one of which no input is replaced by a later one. No redirection
is cut where the wrapped words begin or end. Each is applied once exactly if those between the
wrapped words are the inputs that a later one replaces. -/
theorem applied_once_iff (r : StageConverter) (depth : Nat) {s : Special} {stage : Text}
    {inv : Invocation} (hs : s ∈ wrappers)
    (hinv : Invocation.ofTagged? stage (tagStage stage) = some inv) (hname : inv.name = s.name)
    (hchanged : r.convertStageAt depth stage ≠ stage)
    (hintact : ∀ ρ ∈ placedRedirects stage, ρ.Intact) :
    (∃ body, r.convertStageAt depth stage =
        (applied (placedRedirects stage)).foldl PlacedRedirect.putAround body ∧
      MadeOfWrapped r depth inv s body) ∧
    (∀ ρ ∈ placedRedirects stage,
      ρ.Inside (wrappedWords inv s) ∨ ρ.Clear (wrappedWords inv s)) ∧
    (AppliedOnce stage (wrappedWords inv s) ↔
      ∀ ρ ∈ placedRedirects stage, ρ.Inside (wrappedWords inv s) ↔ ρ.isInput = true ∧
        ∃ σ ∈ placedRedirects stage, σ.isInput = true ∧ ρ.start < σ.start) := by
  obtain ⟨body, hbody, hfinish, hmade⟩ := exists_wrapped hs hinv hname hchanged
  refine ⟨⟨body, ?_, hmade⟩, fun ρ => inside_or_clear hinv (wrappedWords_subset inv s), ?_⟩
  · rw [hfinish, Invocation.finish_eq_foldl hinv hintact hbody]
  · refine forall₂_congr fun ρ hρ => iff_congr Iff.rfl ?_
    exact notMem_applied_iff (pairwise_placedRedirects stage) hρ

/-- A `sudo` whose first input stands between the wrapped words, the second behind them. -/
def sortingInvocation : Invocation :=
  ⟨"sudo", "sudo sort < a x < b 2>> log",
    [⟨⟨"sort", 5, 9, none⟩, .argument⟩, ⟨⟨"x", 14, 15, none⟩, .argument⟩],
    ["<", "a", "<", "b", "2>>", "log"]⟩

/-- The first input is handed on and not put around, the others are put around only. -/
theorem applied_once_sorting :
    let r : StageConverter := ⟨.builtin, .powerShell (some 7)⟩
    let stage := sortingInvocation.stage
    Invocation.ofTagged? stage (tagStage stage) = some sortingInvocation ∧
      (placedRedirects stage).length = 3 ∧
      (∀ ρ ∈ placedRedirects stage, ρ.Intact) ∧
      r.convertStageAt 8 stage ≠ stage ∧
      AppliedOnce stage (wrappedWords sortingInvocation .superuser) := by
  intro r stage
  obtain ⟨hinv, hname, hthree, hintact, hchanged, honly⟩ :
      Invocation.ofTagged? stage (tagStage stage) = some sortingInvocation ∧
        sortingInvocation.name = Special.superuser.name ∧
        (placedRedirects stage).length = 3 ∧ (∀ ρ ∈ placedRedirects stage, ρ.Intact) ∧
        r.convertStageAt 8 stage ≠ stage ∧
        ∀ ρ ∈ placedRedirects stage, ρ.Inside (wrappedWords sortingInvocation .superuser) ↔
          ρ.isInput = true ∧
            ∃ σ ∈ placedRedirects stage, σ.isInput = true ∧ ρ.start < σ.start := by
    decide +kernel
  have hmain := applied_once_iff r 8 (by decide) hinv hname hchanged hintact
  exact ⟨hinv, hthree, hintact, hchanged, hmain.2.2.mpr honly⟩

/-- A `sudo` with an output between the wrapped words. -/
def removingInvocation : Invocation :=
  ⟨"sudo", "sudo rm > log x",
    [⟨⟨"rm", 5, 7, none⟩, .argument⟩, ⟨⟨"x", 14, 15, none⟩, .argument⟩], [">", "log"]⟩

/-- **An output written twice.** The output of this stage is handed on with the wrapped words and
put around the wrapper as well. -/
theorem output_applied_twice :
    let r : StageConverter := ⟨.builtin, .powerShell (some 7)⟩
    let stage := removingInvocation.stage
    Invocation.ofTagged? stage (tagStage stage) = some removingInvocation ∧
      (∀ ρ ∈ placedRedirects stage, ρ.Intact) ∧
      r.convertStage stage = elevated r.target "Remove-Item x > log" ++ " > log".toList ∧
      ¬AppliedOnce stage (wrappedWords removingInvocation .superuser) := by
  decide +kernel

end CrossShell
