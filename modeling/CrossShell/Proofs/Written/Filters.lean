import CrossShell.Proofs.Written.SelfContained
import CrossShell.Special.Fields
import CrossShell.Special.CharSet
import CrossShell.Special.Substitution

/-!
# What the rules of the filters write

`head`, `tail`, `wc`, `nl` and the pagers, `awk` and `cut`, `tr`, `grep` and `sed`. Patterns,
scripts and sets are written as literals, so only the names of files stand in the text as they are.
-/

namespace CrossShell

open Text (singleQuoted)

variable {inv : Invocation} {text : Text}

/-! ## Lines -/

theorem begins_selection (s : Selection) : Begins s.text .firm := by
  cases s with
  | first n => exact ((begins_literal rfl (by decide)).append (leads_ofNat n)).firm
  | last n => exact ((begins_literal rfl (by decide)).append (leads_ofNat n)).firm
  | skip n => exact ((begins_literal rfl (by decide)).append (leads_ofNat n)).firm
  | index n => exact ((begins_literal rfl (by decide)).append (leads_ofNat n)).firm
  | range i j =>
    have hfront : Begins "Select-Object -Index (" (Point.settled.under ⟨1, 0⟩) :=
      begins_literal rfl (by decide)
    have hdots : Leads .settled ".." .settled := leads_literal rfl (by decide)
    exact (((hfront.append ((leads_ofNat i).frame _)).append (hdots.frame _)).append
      ((leads_ofNat j).frame _)).literal rfl (by decide)

theorem begins_followFile {file : Text} (hfile : SelfContained file) {count : Option Text}
    (ht : followFile? file count = some text) : Begins text .firm := by
  have hfront : Begins ("Get-Content ".toList ++ file) .firm :=
    begins_getContent.append hfile.leads
  unfold followFile? at ht
  split at ht
  · cases ht
    exact hfront.literal rfl (by decide)
  · obtain ⟨selection, -, rfl⟩ := Option.map_eq_some_iff.mp ht
    split
    · exact ((hfront.literal rfl (by decide)).append (leads_ofNat _)).firm
    · exact (hfront.literal rfl (by decide)).append (begins_selection _).leads

theorem leads_measure {m : Measure} (hm : m ∈ measures inv) :
    Leads .start m.switch .firm ∧ Leads .start m.property .firm := by
  have hall : m ∈ [(⟨"-Line", "Lines"⟩ : Measure), ⟨"-Word", "Words"⟩,
      ⟨"-Character", "Characters"⟩] := by
    unfold measures at hm
    simp only [List.mem_append] at hm
    rcases hm with (hm | hm) | hm <;> split at hm <;> simp_all
  simp only [List.mem_cons, List.not_mem_nil, or_false] at hall
  rcases hall with rfl | rfl | rfl <;>
    exact ⟨leads_literal rfl (by decide), leads_literal rfl (by decide)⟩

section Lines

variable (h : inv.SelfContained)
include h

theorem begins_convertHead (ht : convertHead? inv = some text) : Begins text .firm := by
  obtain ⟨count, -, ht⟩ := Option.bind_eq_some_iff.mp ht
  obtain ⟨n, -, ht⟩ := Option.bind_eq_some_iff.mp ht
  cases ht
  exact h.begins_finish ((begins_selection _).withInput (h.positionals _))

theorem begins_convertTail (ht : convertTail? inv = some text) : Begins text .firm := by
  unfold convertTail? at ht
  dsimp only at ht
  split at ht
  · split at ht
    · rename_i file hfiles
      obtain ⟨body, hbody, rfl⟩ := Option.map_eq_some_iff.mp ht
      have hfile := h.positionals ["-n", "-c"] file (by rw [hfiles]; simp)
      exact h.begins_finish (begins_followFile hfile hbody)
    · cases ht
  · obtain ⟨count, -, ht⟩ := Option.bind_eq_some_iff.mp ht
    obtain ⟨selection, -, ht⟩ := Option.bind_eq_some_iff.mp ht
    cases ht
    exact h.begins_finish ((begins_selection _).withInput (h.positionals _))

theorem begins_convertWc : Begins (convertWc inv) .firm := by
  have hmeasures := @leads_measure inv
  unfold convertWc
  refine h.begins_finish (Begins.withInput (h.positionals _) ?_)
  generalize measures inv = ms at hmeasures
  have hfront : Begins "Measure-Object " .start := begins_literal rfl (by decide)
  match ms with
  | [] => exact begins_literal rfl (by decide)
  | [m] =>
    obtain ⟨hswitch, hproperty⟩ := hmeasures (m := m) (by simp)
    exact ((hfront.append hswitch).literal rfl (by decide)).append hproperty
  | m :: m' :: ms =>
    have hspace : Leads .firm " " .start := leads_literal rfl (by decide)
    refine hfront.append (leads_join rfl hspace fun t ht => ?_)
    obtain ⟨m, hm, rfl⟩ := List.mem_map.mp ht
    exact (hmeasures hm).1

theorem begins_convertNl : Begins (convertNl inv) .firm := by
  have hbegin : Leads .start "$n = 0" .resting := leads_literal rfl (by decide)
  have hprocess : Leads .start "$n++; \"\x7b0,6\x7d`t\x7b1\x7d\" -f $n, $_" .resting :=
    leads_literal rfl (by decide)
  have hfront : Begins "ForEach-Object -Begin " .settled := begins_literal rfl (by decide)
  have hswitch : Leads .settled " -Process " .settled := leads_literal rfl (by decide)
  have hbody := ((hfront.append (leads_scriptBlock hbegin)).append hswitch).append
    (leads_scriptBlock hprocess)
  exact h.begins_finish (hbody.firm.withInput (h.positionals _))

theorem begins_convertPager : Begins (convertPager inv) .firm :=
  h.begins_finish (Begins.withInput (h.positionals _) (begins_literal rfl (by decide)))

end Lines

/-! ## Fields -/

theorem leads_splitExpression (separator : Text) :
    Leads .start (splitExpression separator) .settled := by
  unfold splitExpression
  split
  · exact leads_literal rfl (by decide)
  split
  · exact (leads_singleQuoted separator).enclose (n := ⟨1, 0⟩)
      (leads_literal rfl (by decide)) (leads_literal rfl (by decide))
  · exact (leads_singleQuoted separator).enclose (n := ⟨1, 0⟩)
      (leads_literal rfl (by decide)) (leads_literal rfl (by decide))

/-- An index behind an expression. -/
theorem Leads.index {t : Text} (h : Leads .start t .settled) (n : Nat) :
    Leads .start (t ++ "[" ++ Text.ofNat n ++ "]") .settled := by
  have hopen : Leads .settled "[" .settled := leads_literal rfl (by decide)
  have hclose : Leads .settled "]" .settled := leads_literal rfl (by decide)
  exact ((h.append hopen).append (leads_ofNat n)).append hclose

theorem leads_fieldExpression (separator : Option Text) (n : Nat) :
    Leads .start (fieldExpression separator n) .resting := by
  cases n with
  | zero => exact leads_literal rfl (by decide)
  | succ n =>
    cases separator with
    | none => exact (Leads.index (leads_literal rfl (by decide)) n).relax (by decide)
    | some s => exact ((leads_splitExpression s).index n).relax (by decide)

theorem leads_fieldsExpression (delimiter : Text) (indices : List Nat) :
    Leads .start (fieldsExpression delimiter indices) .resting := by
  have hsplit := leads_splitExpression delimiter
  unfold fieldsExpression
  dsimp only
  split
  · exact (hsplit.index _).relax (by decide)
  · have hpick : ∀ n, Leads .start ("$f[" ++ Text.ofNat n ++ "]") .firm := by
      intro n
      have hopen : Leads .start "$f[" .settled := leads_literal rfl (by decide)
      have hclose : Leads .settled "]" .firm := leads_literal rfl (by decide)
      exact (hopen.append (leads_ofNat n)).append hclose
    have hpicks : Leads .start (commaList (indices.map fun i => "$f[" ++ Text.ofNat i ++ "]"))
        .firm := by
      refine leads_join rfl leads_comma.firm fun t ht => ?_
      obtain ⟨n, -, rfl⟩ := List.mem_map.mp ht
      exact hpick n
    have hfront : Leads .start "$f = " .start := leads_literal rfl (by decide)
    have hopen : Leads .settled "; (" (Point.start.under ⟨1, 0⟩) :=
      leads_literal rfl (by decide)
    have hclose : Leads (Point.firm.under ⟨1, 0⟩) ") -join " .settled :=
      leads_literal rfl (by decide)
    refine ((((hfront.append hsplit).append hopen).append (hpicks.frame _)).append hclose).append ?_
    split
    · exact leads_literal rfl (by decide)
    · exact (leads_singleQuoted delimiter).relax (by decide)

section Fields

variable (h : inv.SelfContained)
include h

theorem begins_convertAwk (ht : convertAwk? inv = some text) : Begins text .firm := by
  unfold convertAwk? at ht
  split at ht
  · cases ht
  · rename_i program files hfiles
    obtain ⟨digits, -, ht⟩ := Option.bind_eq_some_iff.mp ht
    obtain ⟨field, -, ht⟩ := Option.bind_eq_some_iff.mp ht
    cases ht
    refine h.begins_finish (Begins.withInput (fun w hw => ?_)
      (begins_forEachItem (leads_fieldExpression _ _)))
    exact h.positionals ["-F"] w (by rw [hfiles]; exact List.mem_cons_of_mem _ hw)

theorem begins_convertCut (ht : convertCut? inv = some text) : Begins text .firm := by
  obtain ⟨list, -, ht⟩ := Option.bind_eq_some_iff.mp ht
  obtain ⟨indices, -, ht⟩ := Option.bind_eq_some_iff.mp ht
  dsimp only at ht
  split at ht
  · cases ht
  · cases ht
    exact h.begins_finish (Begins.withInput (h.positionals _)
      (begins_forEachItem (leads_fieldsExpression _ _)))

end Fields

/-! ## Sets of characters -/

theorem begins_deleteChars {set : Text} (ht : deleteChars? set = some text) :
    Begins text .firm := by
  unfold deleteChars? at ht
  split at ht
  · cases ht
  · cases ht
    have hfront : Leads .start "$_ -creplace " .settled := leads_literal rfl (by decide)
    have hback : Leads .settled ", ''" .resting := leads_literal rfl (by decide)
    exact begins_forEachItem ((hfront.append (leads_singleQuoted _)).append hback)

theorem begins_exchangeChars {source dest : Text} (ht : exchangeChars? source dest = some text) :
    Begins text .firm := by
  have hcomma : Leads .settled ", " .settled := leads_literal rfl (by decide)
  unfold exchangeChars? at ht
  split at ht
  · cases ht
  split at ht
  · cases ht
    exact begins_forEachItem (leads_literal rfl (by decide))
  split at ht
  · cases ht
    exact begins_forEachItem (leads_literal rfl (by decide))
  split at ht
  · cases ht
    have hopen : Leads .start "$_.Replace(" (Point.settled.under ⟨1, 0⟩) :=
      leads_literal rfl (by decide)
    have hclose : Leads (Point.settled.under ⟨1, 0⟩) ")" .resting :=
      leads_literal rfl (by decide)
    exact begins_forEachItem ((((hopen.append ((leads_singleQuoted source).frame _)).append
      (hcomma.frame _)).append ((leads_singleQuoted dest).frame _)).append hclose)
  · cases ht
    have hparam : Leads .start "param($m) " .settled := leads_literal rfl (by decide)
    have hbracket : Leads .settled "[" .settled := leads_literal rfl (by decide)
    have hindex : Leads .settled ".IndexOf($m.Value)]" .resting :=
      leads_literal rfl (by decide)
    have hbody := (((hparam.append (leads_singleQuoted dest)).append hbracket).append
      (leads_singleQuoted source)).append hindex
    have hopen : Leads .start "[regex]::Replace($_, " (Point.settled.under ⟨1, 0⟩) :=
      leads_literal rfl (by decide)
    have hclose : Leads (Point.settled.under ⟨1, 0⟩) ")" .resting :=
      leads_literal rfl (by decide)
    exact begins_forEachItem ((((hopen.append ((leads_singleQuoted _).frame _)).append
      (hcomma.frame _)).append ((leads_scriptBlock hbody).frame _)).append hclose)

theorem begins_convertTr (h : inv.SelfContained) (ht : convertTr? inv = some text) :
    Begins text .firm := by
  obtain ⟨sets, -, ht⟩ := Option.bind_eq_some_iff.mp ht
  dsimp only at ht
  split at ht
  · obtain ⟨body, hbody, ht⟩ := Option.bind_eq_some_iff.mp ht
    cases ht
    exact h.begins_finish (begins_deleteChars hbody)
  · obtain ⟨body, hbody, ht⟩ := Option.bind_eq_some_iff.mp ht
    cases ht
    exact h.begins_finish (begins_exchangeChars hbody)
  · cases ht

/-! ## Patterns and scripts -/

theorem leads_searchArguments {target : Target} {pattern : Text} {paths : List Text} :
    ∀ t ∈ searchArguments target inv pattern paths, Leads .start t .firm := by
  have hpattern : Leads .start ("-Pattern " ++ singleQuoted (searchPattern inv pattern)) .firm :=
    ((leads_literal rfl (by decide)).append (leads_singleQuoted _)).relax (by decide)
  have hcase : Leads .start "-CaseSensitive".toList .firm := leads_literal rfl (by decide)
  have hnot : Leads .start "-NotMatch".toList .firm := leads_literal rfl (by decide)
  have hsimple : Leads .start "-SimpleMatch".toList .firm := leads_literal rfl (by decide)
  have hlist : Leads .start "-List".toList .firm := leads_literal rfl (by decide)
  have hraw : Leads .start "-Raw".toList .firm := leads_literal rfl (by decide)
  intro t ht
  unfold searchArguments at ht
  simp only [List.mem_append, List.mem_singleton, or_assoc] at ht
  rcases ht with rfl | ht | ht | ht | ht | ht
  · exact hpattern
  all_goals
    split at ht
    all_goals simp only [List.mem_singleton, List.not_mem_nil] at ht
    all_goals subst ht; assumption

theorem begins_substitution (s : Substitution) (extended : Bool) :
    Begins (s.text extended) .firm := by
  have hpattern := leads_singleQuoted (if extended then s.pattern else extendedPattern s.pattern)
  have hreplacement := leads_singleQuoted (replacementText s.replacement)
  have hcomma : Leads .settled ", " .settled := leads_literal rfl (by decide)
  have honce : Leads (Point.settled.under ⟨1, 0⟩) ", 1)" .resting :=
    leads_literal rfl (by decide)
  unfold Substitution.text
  dsimp only
  refine begins_forEachItem ?_
  split
  · have hfront : Leads .start "$_ -creplace " .settled := leads_literal rfl (by decide)
    exact (((hfront.append hpattern).append hcomma).append hreplacement).relax (by decide)
  · have hfront : Leads .start "$_ -replace " .settled := leads_literal rfl (by decide)
    exact (((hfront.append hpattern).append hcomma).append hreplacement).relax (by decide)
  · have hfront : Leads .start "([regex]" (Point.settled.under ⟨1, 0⟩) :=
      leads_literal rfl (by decide)
    have hcall : Leads (Point.settled.under ⟨1, 0⟩) ").Replace($_, "
        (Point.settled.under ⟨1, 0⟩) :=
      leads_literal rfl (by decide)
    exact (((hfront.append (hpattern.frame _)).append hcall).append
      (hreplacement.frame _)).append honce
  · have hfront : Leads .start "[regex]::new(" (Point.settled.under ⟨1, 0⟩) :=
      leads_literal rfl (by decide)
    have hcall : Leads (Point.settled.under ⟨1, 0⟩) ", 'IgnoreCase').Replace($_, "
        (Point.settled.under ⟨1, 0⟩) :=
      leads_literal rfl (by decide)
    exact (((hfront.append (hpattern.frame _)).append hcall).append
      (hreplacement.frame _)).append honce

section Scripts

variable (h : inv.SelfContained)
include h

theorem selfContained_of_scriptAndFiles {script : Text} {files : List Text}
    (hs : scriptAndFiles? inv = some (script, files)) : ∀ w ∈ files, SelfContained w := by
  intro w hw
  refine h.positionals ["-e"] w ?_
  unfold scriptAndFiles? at hs
  split at hs
  · rename_i hfiles
    cases hs
    exact hw
  · rename_i hfiles
    cases hs
    rw [hfiles]
    exact List.mem_cons_of_mem _ hw
  · cases hs

theorem begins_convertGrep {target : Target} (ht : convertGrep? target inv = some text) :
    Begins text .firm := by
  obtain ⟨⟨script, paths⟩, hs, ht⟩ := Option.bind_eq_some_iff.mp ht
  have hpaths := selfContained_of_scriptAndFiles h hs
  cases ht
  refine h.begins_finish ?_
  have hspace : Leads .firm " " .start := leads_literal rfl (by decide)
  have hsearch : Begins ("Select-String " ++
      Text.join " " (searchArguments target inv (Text.unquote script) paths)) .firm :=
    (begins_literal rfl (by decide)).append (leads_join rfl hspace leads_searchArguments)
  refine Begins.append (p := .firm) ?_ ?_
  · split
    · have hfront : Begins "Get-ChildItem -Path " .start := begins_literal rfl (by decide)
      exact ((hfront.append (leads_pathList hpaths)).literal rfl (by decide)).append
        hsearch.leads
    split
    · exact hsearch
    · exact (hsearch.literal rfl (by decide)).append (leads_commaList_words hpaths)
  · split
    · exact leads_literal rfl (by decide)
    · exact (leads_literal rfl (by decide)).optional

theorem begins_convertSed (ht : convertSed? inv = some text) : Begins text .firm := by
  obtain ⟨⟨script, files⟩, hs, ht⟩ := Option.bind_eq_some_iff.mp ht
  have hfiles := selfContained_of_scriptAndFiles h hs
  obtain ⟨body, hbody, ht⟩ := Option.bind_eq_some_iff.mp ht
  have hstage : Begins body .firm := by
    unfold scriptStage? at hbody
    split at hbody
    · obtain ⟨selection, -, rfl⟩ := Option.map_eq_some_iff.mp hbody
      exact begins_selection selection
    · obtain ⟨substitution, -, rfl⟩ := Option.map_eq_some_iff.mp hbody
      exact begins_substitution substitution _
  split at ht
  · split at ht
    · rename_i file _
      cases ht
      have hfile := (hfiles file List.mem_cons_self).leads
      have hopen : Begins "(Get-Content " (Point.start.under ⟨1, 0⟩) :=
        begins_literal rfl (by decide)
      have hclose : Leads (Point.firm.under ⟨1, 0⟩) ") | " .start :=
        leads_literal rfl (by decide)
      have hset : Leads .firm " | Set-Content " .start := leads_literal rfl (by decide)
      exact h.begins_finish (((((hopen.append (hfile.frame _)).append hclose).append
        hstage.leads).append hset).append hfile)
    · cases ht
  · cases ht
    exact h.begins_finish (hstage.withInput hfiles)

end Scripts

end CrossShell
