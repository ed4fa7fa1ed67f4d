import CrossShell.Proofs.Lint.Agreement
import CrossShell.Proofs.Lint.Ranking

/-!
# Suggested flags and the report

A flag that is suggested stands for a pattern that the command accepts. Of a pattern with a value it
loses the `=`, so that for `head` and `tail` the flag `--lines` is suggested, which neither of them
accepts. Every other suggestion is accepted, and puts an end to the entry of the report if it takes
the place of the flag.

Each entry of a report belongs to a word of the stage. Whether a word is reported depends on the
word and on those in front of it only, so that the word of an entry can be replaced.

* `Special.ownsPlace`: whether a flag at a place belongs to the command itself.
* `Linter.reportedPlaces`, `Linter.unsupportedFlags_eq`: the places of the flags that are reported.
* `FlagPattern.accepts_example`: a pattern accepts its own example unless an `=` is cut off.
* `suggested_flag_taken_iff`: which suggestions are accepted, and what becomes of their entries.
-/

namespace CrossShell

/-! ## Places of words -/

/-- The places of the words that pass a test. -/
def placesWhere (test : Nat → TaggedToken → Bool) (words : List TaggedToken) : List Nat :=
  (List.range words.length).filter fun i => words[i]?.any (test i)

/-- The words that pass a test on their places. -/
def pickPlaces (test : Nat → TaggedToken → Bool) (words : List TaggedToken) : List TaggedToken :=
  (placesWhere test words).filterMap (words[·]?)

theorem mem_placesWhere {test : Nat → TaggedToken → Bool} {words : List TaggedToken} {i : Nat} :
    i ∈ placesWhere test words ↔ ∃ w, words[i]? = some w ∧ test i w = true := by
  rw [placesWhere, List.mem_filter, List.mem_range, Option.any_eq_true]
  constructor
  · exact fun h => h.2
  · rintro ⟨w, hw, htest⟩
    exact ⟨(List.getElem?_eq_some_iff.mp hw).1, w, hw, htest⟩

theorem pickPlaces_cons (test : Nat → TaggedToken → Bool) (w : TaggedToken)
    (words : List TaggedToken) :
    pickPlaces test (w :: words) =
      (if test 0 w then [w] else []) ++ pickPlaces (fun i => test (i + 1)) words := by
  have hrest : (((List.range words.length).map Nat.succ).filter fun i =>
        (w :: words)[i]?.any (test i)).filterMap ((w :: words)[·]?) =
      pickPlaces (fun i => test (i + 1)) words := by
    rw [List.filter_map, List.filterMap_map]
    rfl
  rw [pickPlaces, placesWhere, List.length_cons, List.range_succ_eq_map, List.filter_cons]
  by_cases hw : test 0 w = true
  · rw [if_pos (by simpa using hw), List.filterMap_cons, hrest, if_pos hw]
    rfl
  · rw [if_neg (by simpa using hw), hrest, if_neg hw]
    rfl

theorem pickPlaces_of_forall {test : Nat → TaggedToken → Bool} {words : List TaggedToken}
    (h : ∀ i w, test i w = false) : pickPlaces test words = [] := by
  have hnone : placesWhere test words = [] := by
    rw [List.eq_nil_iff_forall_not_mem]
    intro i hi
    obtain ⟨w, -, hw⟩ := mem_placesWhere.mp hi
    exact Bool.false_ne_true ((h i w).symm.trans hw)
  rw [pickPlaces, hnone]
  rfl

theorem pickPlaces_eq_filter (test : TaggedToken → Bool) (words : List TaggedToken) :
    pickPlaces (fun _ => test) words = words.filter test := by
  induction words with
  | nil => rfl
  | cons w words ih => rw [pickPlaces_cons, ih, List.filter_cons]; split <;> rfl

theorem filter_pickPlaces (test : Nat → TaggedToken → Bool) (keep : TaggedToken → Bool)
    (words : List TaggedToken) : (pickPlaces test words).filter keep =
      pickPlaces (fun i w => test i w && keep w) words := by
  induction words generalizing test with
  | nil => rfl
  | cons w words ih =>
    rw [pickPlaces_cons, pickPlaces_cons, List.filter_append, ih]
    by_cases hw : test 0 w = true
    · by_cases hkeep : keep w = true <;> simp [hw, hkeep]
    · simp [hw]

/-- What is read of a word: its text and its role, but not where it stands. -/
def TaggedToken.read (w : TaggedToken) : Text × Role := (w.value, w.role)

theorem TaggedToken.isFlag_eq_of_read {v w : TaggedToken} (h : v.read = w.read) :
    v.isFlag = w.isFlag := by
  rw [TaggedToken.isFlag, TaggedToken.isFlag, (Prod.mk.inj h).2]

/-! ## Flags that belong to the command -/

theorem Invocation.commandIn?_congr {valued : List Text} {skip : Bool}
    {words words' : List TaggedToken} (h : words.map (·.read) = words'.map (·.read)) :
    commandIn? valued skip words = commandIn? valued skip words' := by
  induction words generalizing words' skip with
  | nil =>
    obtain rfl : words' = [] := by simpa using h.symm
    rfl
  | cons w words ih =>
    obtain ⟨w', words', rfl, hw, hwords⟩ := List.map_eq_cons_iff.mp h.symm
    have hvalue : w'.value = w.value := (Prod.mk.inj hw).1
    have hflag : w'.isFlag = w.isFlag := TaggedToken.isFlag_eq_of_read hw
    cases skip with
    | true => rw [commandIn?, commandIn?, ih hwords.symm]
    | false => rw [commandIn?, commandIn?, hvalue, hflag, ih hwords.symm]

namespace Special

/-- Whether a flag at a place belongs to the command itself, by the words in front of it: none of
them is the command word that a wrapper looks for, and none is the flag at which it stops. -/
def ownsPlace (s : Special) (words : List TaggedToken) (i : Nat) : Bool :=
  match s.scope with
  | .whole => true
  | .untilCommand valued => (Invocation.commandIn? valued false (words.take i)).isNone
  | .through stop => !(words.take i).any fun w => w.isFlag && w.value == stop

theorem ownsPlace_congr (s : Special) {words words' : List TaggedToken} {i : Nat}
    (h : (words.take i).map (·.read) = (words'.take i).map (·.read)) :
    s.ownsPlace words i = s.ownsPlace words' i := by
  unfold ownsPlace
  split
  · rfl
  · rw [Invocation.commandIn?_congr h]
  · rename_i stop _
    have hany (ws : List TaggedToken) : (ws.any fun w => w.isFlag && w.value == stop) =
        (ws.map (·.read)).any fun r => r.2 == .flag && r.1 == stop := by
      rw [List.any_map]
      rfl
    rw [hany, hany, h]

/-- The flags in front of the wrapped command, by their places. -/
theorem flags_take_commandIn? (valued : List Text) (skip : Bool) (words : List TaggedToken) :
    (words.take ((Invocation.commandIn? valued skip words).getD words.length)).filter (·.isFlag) =
      pickPlaces (fun i w => w.isFlag && (Invocation.commandIn? valued skip (words.take i)).isNone)
        words := by
  induction words generalizing skip with
  | nil => cases skip <;> rfl
  | cons w words ih =>
    have hgetD (index : Option Nat) : (index.map (· + 1)).getD (words.length + 1) =
        index.getD words.length + 1 := by
      cases index <;> rfl
    rw [pickPlaces_cons]
    cases skip with
    | true =>
      have hfirst : Invocation.commandIn? valued true [] = none := rfl
      simp only [Invocation.commandIn?, List.length_cons, hgetD, List.take_succ_cons,
        List.filter_cons, ih, List.take_zero, hfirst, Option.isNone_none, Bool.and_true,
        Option.isNone_map]
      split <;> rfl
    | false =>
      by_cases hflag : w.isFlag = true
      · have hfirst : Invocation.commandIn? valued false [] = none := rfl
        simp only [Invocation.commandIn?, hflag, if_true, List.length_cons, hgetD,
          List.take_succ_cons, List.filter_cons, ih, List.take_zero, hfirst, Option.isNone_none,
          Bool.and_true, Option.isNone_map, List.singleton_append]
      · simp only [Invocation.commandIn?, hflag, List.take_succ_cons, Option.getD_some,
          List.take_zero, List.filter_nil, Bool.false_and, Bool.false_eq_true, if_false,
          List.nil_append]
        exact (pickPlaces_of_forall fun i w => by simp).symm

/-- The flags up to and with a given one, by their places. -/
theorem upThrough_flags (stop : Text) (words : List TaggedToken) :
    upThrough stop ((words.filter (·.isFlag)).map (·.value)) =
      (pickPlaces (fun i w => w.isFlag &&
        !(words.take i).any fun w => w.isFlag && w.value == stop) words).map (·.value) := by
  induction words with
  | nil => rfl
  | cons w words ih =>
    rw [pickPlaces_cons]
    by_cases hflag : w.isFlag = true
    · by_cases hstop : w.value = stop
      · have hnone : pickPlaces (fun _ _ => false) words = [] := pickPlaces_of_forall fun _ _ => rfl
        simp [hflag, hstop, upThrough, hnone]
      · have hbeq : (w.value == stop) = false := beq_eq_false_iff_ne.mpr hstop
        simp [hflag, hstop, hbeq, upThrough, ih]
    · simp [hflag, ih]

/-- The flags that belong to a command are those at the places that it owns. -/
theorem ownFlags_eq (s : Special) (inv : Invocation) : s.ownFlags inv =
    (pickPlaces (fun i w => w.isFlag && s.ownsPlace inv.words i) inv.words).map (·.value) := by
  unfold ownFlags ownsPlace
  cases s.scope with
  | whole =>
    simp only [Bool.and_true, pickPlaces_eq_filter]
    rfl
  | untilCommand valued =>
    simp only
    rw [← flags_take_commandIn?]
    rfl
  | through stop => exact upThrough_flags stop inv.words

end Special

/-! ## What is reported -/

namespace Linter

/-- Whether a command takes a flag: its own rule accepts it, or else its mapping has it. -/
def takes (l : Linter) (command flag : Text) : Bool :=
  match Special.ofName? command with
  | some s => s.acceptsFlag flag
  | none => (l.rules.get? command).any fun m => m.flags.keys.contains flag

/-- Whether a flag at a place belongs to the command of an invocation. -/
def ownsPlace (l : Linter) (inv : Invocation) (i : Nat) : Bool :=
  match Special.ofName? inv.name with
  | some s => s.ownsPlace inv.words i
  | none => (l.rules.get? inv.name).isSome

/-- Whether the word at a place is reported: it is a flag of the command, which does not take it. -/
def reports (l : Linter) (inv : Invocation) (i : Nat) (w : TaggedToken) : Bool :=
  w.isFlag && l.ownsPlace inv i && !l.takes inv.name w.value

/-- The places of the words that are reported. -/
def reportedPlaces (l : Linter) (inv : Invocation) : List Nat :=
  placesWhere (l.reports inv) inv.words

/-- The entries of the reported places. -/
def entries (l : Linter) (inv : Invocation) : List Text :=
  (l.reportedPlaces inv).filterMap fun i => inv.words[i]?.map fun w => inv.name ++ " " ++ w.value

theorem unsupportedFlags_eq (l : Linter) (inv : Invocation) : l.unsupportedFlags inv =
    (pickPlaces (l.reports inv) inv.words).map (·.value) := by
  unfold unsupportedFlags reports ownsPlace takes
  cases Special.ofName? inv.name with
  | some s =>
    simp only [Special.unsupportedFlags, Special.ownFlags_eq, List.filter_map, filter_pickPlaces]
    rfl
  | none =>
    cases l.rules.get? inv.name with
    | some m =>
      simp only [Option.isSome_some, Bool.and_true, Option.any_some, pickPlaces_eq_filter,
        Invocation.flags, List.filter_map, List.filter_filter]
      refine congrArg (fun keep => (inv.words.filter keep).map (·.value)) (funext fun w => ?_)
      exact Bool.and_comm _ _
    | none =>
      simp only [Option.isSome_none, Bool.and_false, Bool.false_and]
      rw [pickPlaces_of_forall fun _ _ => rfl]
      rfl

theorem entries_eq (l : Linter) (inv : Invocation) :
    l.entries inv = (l.unsupportedFlags inv).map fun flag => inv.name ++ " " ++ flag := by
  rw [unsupportedFlags_eq, List.map_map, pickPlaces, List.map_filterMap]
  rfl

theorem isKnown_of_ownsPlace {l : Linter} {inv : Invocation} {i : Nat} (h : l.rules.Indexed)
    (howns : l.ownsPlace inv i = true) : l.isKnown inv.name = true := by
  rw [isKnown_iff, ← h.contains_iff, h.contains_eq]
  unfold ownsPlace at howns
  split at howns
  · rename_i s hs
    exact .inr (by rw [hs]; rfl)
  · exact .inl howns

end Linter

/-- A stage outside of groups has an invocation. -/
def HasInvocation (stage : Text) (inv : Invocation) : Prop :=
  isGrouped stage = false ∧ Invocation.ofTagged? stage (tagStage stage) = some inv

theorem Linter.unsupported_eq_entries {l : Linter} {stage : Text} {inv : Invocation}
    (hreads : HasInvocation stage inv) (hknown : l.isKnown inv.name = true) :
    (l.stageReport stage).unsupported = l.entries inv := by
  simp [stageReport, stageFindings, Report.ofFindings, hreads.1, hreads.2, hknown, entries_eq]

/-! ## Another word at a place -/

/-- An invocation with another word at a place. Where its words stand in the stage does not
matter. -/
def Invocation.ReplacedAt (inv : Invocation) (i : Nat) (word : Text × Role) (inv' : Invocation) :
    Prop :=
  inv'.name = inv.name ∧ inv'.words.map (·.read) = (inv.words.map (·.read)).set i word

/-- At a place that belongs to the command, another word is reported if it is a flag that the
command does not take. -/
theorem Linter.mem_reportedPlaces_replaced {l : Linter} {inv inv' : Invocation} {i : Nat}
    {t : Text} {role : Role} (hi : i ∈ l.reportedPlaces inv)
    (hreplaced : inv.ReplacedAt i (t, role) inv') :
    i ∈ l.reportedPlaces inv' ↔ role = .flag ∧ l.takes inv.name t = false := by
  obtain ⟨w, hw, hreports⟩ := mem_placesWhere.mp hi
  obtain ⟨hname, hwords⟩ := hreplaced
  have howns : l.ownsPlace inv' i = true := by
    have hfront : (inv'.words.take i).map (·.read) = (inv.words.take i).map (·.read) := by
      rw [List.map_take, hwords, List.take_set_of_le (Nat.le_refl i), List.map_take]
    have hsame : l.ownsPlace inv' i = l.ownsPlace inv i := by
      unfold ownsPlace
      rw [hname]
      split
      · exact Special.ownsPlace_congr _ hfront
      · rfl
    rw [reports, Bool.and_eq_true, Bool.and_eq_true] at hreports
    exact hsame.trans hreports.1.2
  have hlength : i < (inv.words.map (·.read)).length := by
    rw [List.length_map]
    exact (List.getElem?_eq_some_iff.mp hw).1
  obtain ⟨w', hw', hread⟩ : ∃ w', inv'.words[i]? = some w' ∧ w'.read = (t, role) := by
    have hget := congrArg (·[i]?) hwords
    simp only [List.getElem?_set_self hlength, List.getElem?_map, Option.map_eq_some_iff] at hget
    exact hget
  obtain ⟨hvalue, hrole⟩ := Prod.mk.inj hread
  rw [reportedPlaces, mem_placesWhere]
  simp [hw', reports, howns, hname, hvalue, TaggedToken.isFlag, hrole]

/-! ## Examples of patterns -/

/-- Whether a pattern ends in the `=` before a value. -/
def FlagPattern.hasSign : FlagPattern → Bool
  | stem t => t.getLast? == some '='
  | _ => false

/-- A pattern accepts the flag that stands for it, unless an `=` is cut off. -/
theorem FlagPattern.accepts_example {p : FlagPattern} {t : Text} (h : p.example? = some t)
    (hsign : p.hasSign = false) : p.accepts t = true := by
  cases p with
  | exact flag =>
    cases h
    exact beq_self_eq_true t
  | stem u =>
    cases h
    have hlast : u.reverse.head? ≠ some '=' := by
      rw [List.head?_reverse]
      exact beq_eq_false_iff_ne.mp hsign
    have hwhole : u.reverse.dropWhile (· == '=') = u.reverse := by
      cases hu : u.reverse with
      | nil => rfl
      | cons c cs =>
        have hc : c ≠ '=' := fun hc => hlast (by rw [hu, hc]; rfl)
        rw [List.dropWhile_cons_of_neg (by simpa using hc)]
    rw [hwhole, List.reverse_reverse]
    exact List.isPrefixOf_iff_prefix.mpr (List.prefix_refl u)
  | number => cases h

/-- The flag `--lines` of `head` and `tail`, whose value is cut off. -/
def CutOff (command flag : Text) : Prop :=
  (command = "head".toList ∨ command = "tail".toList) ∧ flag = "--lines".toList

theorem Special.cutOff_of_hasSign : ∀ s ∈ all, ∀ p ∈ s.flagPatterns, p.hasSign = true →
    (s.name = "head".toList ∨ s.name = "tail".toList) ∧ p.example? = some "--lines".toList := by
  decide

theorem Special.not_acceptsFlag_of_cutOff {s : Special} {command flag : Text}
    (hs : ofName? command = some s) (h : CutOff command flag) : s.acceptsFlag flag = false := by
  obtain ⟨rfl | rfl, rfl⟩ := h
  · cases hs
    decide
  · cases hs
    decide

theorem Special.name_of_ofName? {s : Special} {command : Text} (h : ofName? command = some s) :
    s ∈ all ∧ s.name = command :=
  ⟨List.mem_of_find?_eq_some h, by simpa using List.find?_some h⟩

/-- A flag that may be suggested is taken unless its value is cut off. -/
theorem Linter.takes_of_mem_suggestibleFlags {l : Linter} {command t : Text}
    (h : t ∈ l.suggestibleFlags command) : l.takes command t = true ↔ ¬CutOff command t := by
  unfold suggestibleFlags at h
  unfold takes
  cases hspecial : Special.ofName? command with
  | some s =>
    obtain ⟨hmem, hname⟩ := Special.name_of_ofName? hspecial
    rw [hspecial] at h
    obtain ⟨p, hp, hexample⟩ := List.mem_filterMap.mp h
    show s.acceptsFlag t = true ↔ _
    constructor
    · intro haccepts hcut
      rw [Special.not_acceptsFlag_of_cutOff hspecial hcut] at haccepts
      cases haccepts
    · intro hcut
      have hsign : p.hasSign = false := by
        by_contra hsign
        obtain ⟨hcommand, hlines⟩ := Special.cutOff_of_hasSign s hmem p hp (by simpa using hsign)
        exact hcut ⟨hname ▸ hcommand, Option.some.inj (hexample.symm.trans hlines)⟩
      have hfits : s.fits t = true :=
        List.any_eq_true.mpr ⟨p, hp, FlagPattern.accepts_example hexample hsign⟩
      simp [Special.acceptsFlag, hfits]
  | none =>
    rw [hspecial] at h
    have hcut : ¬CutOff command t := by
      rintro ⟨rfl | rfl, -⟩
      · exact absurd hspecial (by decide)
      · exact absurd hspecial (by decide)
    cases hget : l.rules.get? command with
    | none =>
      rw [hget] at h
      cases h
    | some m =>
      rw [hget] at h
      simpa [hcut] using h

/-! ## Suggestions -/

/-- For every table of a user and every score: a suggestion is a flag that the command takes, unless
it is the `--lines` of `head` or `tail`. If it takes the place of a flag that is reported, and all
other words stay, then there is no entry for its place any more, unless it is that flag. -/
theorem suggested_flag_taken_iff (overlay : List Mapping) (score : Text → Text → Int)
    (command flag t : Text) :
    let l : Linter := ⟨RuleTable.withOverlay overlay, score⟩
    t ∈ l.flagSuggestions command flag →
      (l.takes command t = true ↔ ¬CutOff command t) ∧
      ∀ stage inv stage' inv' i role, HasInvocation stage inv → inv.name = command →
        i ∈ l.reportedPlaces inv → HasInvocation stage' inv' → inv.ReplacedAt i (t, role) inv' →
        (l.stageReport stage).unsupported = l.entries inv ∧
          (l.stageReport stage').unsupported = l.entries inv' ∧
          (i ∈ l.reportedPlaces inv' ↔ role = .flag ∧ CutOff command t) := by
  intro l ht
  have hindexed : l.rules.Indexed := RuleTable.indexed_withOverlay overlay
  obtain ⟨-, -, hmem, -⟩ := (l.bestFew_flagSuggestions command flag).isCandidate t ht
  have htakes := Linter.takes_of_mem_suggestibleFlags hmem
  refine ⟨htakes, ?_⟩
  rintro stage inv stage' inv' i role hreads rfl hi hreads' hreplaced
  have hknown : l.isKnown inv.name = true := by
    obtain ⟨w, -, hreports⟩ := mem_placesWhere.mp hi
    rw [Linter.reports, Bool.and_eq_true, Bool.and_eq_true] at hreports
    exact Linter.isKnown_of_ownsPlace hindexed hreports.1.2
  have hknown' : l.isKnown inv'.name = true := by rwa [hreplaced.1]
  refine ⟨Linter.unsupported_eq_entries hreads hknown,
    Linter.unsupported_eq_entries hreads' hknown', ?_⟩
  rw [Linter.mem_reportedPlaces_replaced hi hreplaced, ← Bool.not_eq_true, htakes, not_not]

/-- `head` with a flag, a number and a file. -/
def headInvocation (flag : Text) : Invocation :=
  let stop := 5 + Text.size flag
  { name := "head".toList
    stage := "head ".toList ++ flag ++ " 5 f".toList
    words := [⟨⟨flag, 5, stop, none⟩, .flag⟩, ⟨⟨['5'], stop + 1, stop + 2, none⟩, .argument⟩,
      ⟨⟨['f'], stop + 3, stop + 4, none⟩, .argument⟩]
    redirects := [] }

theorem mem_flagSuggestions_line (rules : RuleTable) (score : Text → Text → Int) {t : Text}
    (ht : t ∈ ["-n".toList, "--lines".toList]) :
    t ∈ Linter.flagSuggestions ⟨rules, score⟩ "head".toList "--line".toList := by
  have hflags : Linter.suggestibleFlags ⟨rules, score⟩ "head".toList =
      Special.head.flagPatterns.filterMap FlagPattern.example? := rfl
  have hclose : (Special.head.flagPatterns.filterMap FlagPattern.example?).filter
      (isCloseFlag "--line".toList) = ["-n".toList, "--lines".toList] := by decide +kernel
  have hbare : (bareFlag "--line".toList).isEmpty = false := by decide +kernel
  rw [Linter.flagSuggestions, hbare, hflags, hclose]
  exact mem_rank_of_length_le (by decide) ht

theorem suggested_flag_taken_count :
    let l : Linter := ⟨RuleTable.withOverlay [], similarity⟩
    let inv := headInvocation "--line".toList
    let inv' := headInvocation "-n".toList
    "-n".toList ∈ l.flagSuggestions inv.name "--line".toList ∧
      HasInvocation inv.stage inv ∧ 0 ∈ l.reportedPlaces inv ∧ HasInvocation inv'.stage inv' ∧
      inv.ReplacedAt 0 ("-n".toList, .flag) inv' ∧ l.takes inv.name "-n".toList = true ∧
      (l.stageReport inv.stage).unsupported = ["head --line".toList] ∧
      (l.stageReport inv'.stage).unsupported = [] ∧ 0 ∉ l.reportedPlaces inv' := by
  intro l inv inv'
  have hmem : "-n".toList ∈ l.flagSuggestions inv.name "--line".toList :=
    mem_flagSuggestions_line _ _ (by decide)
  have hcut : ¬CutOff inv.name "-n".toList := fun h => absurd h.2 (by decide)
  have hreads : HasInvocation inv.stage inv := ⟨by decide +kernel, by decide +kernel⟩
  have hreads' : HasInvocation inv'.stage inv' := ⟨by decide +kernel, by decide +kernel⟩
  have hplace : 0 ∈ l.reportedPlaces inv := by decide +kernel
  have hreplaced : inv.ReplacedAt 0 ("-n".toList, .flag) inv' := ⟨rfl, by decide +kernel⟩
  obtain ⟨htakes, hreport⟩ := suggested_flag_taken_iff [] similarity inv.name "--line".toList
    "-n".toList hmem
  obtain ⟨hbefore, hafter, hgone⟩ := hreport inv.stage inv inv'.stage inv' 0 .flag hreads rfl
    hplace hreads' hreplaced
  refine ⟨hmem, hreads, hplace, hreads', hreplaced, htakes.mpr hcut, ?_, ?_, ?_⟩
  · rw [hbefore]
    decide +kernel
  · rw [hafter]
    decide +kernel
  · rw [hgone]
    exact fun h => hcut h.2

/-- The flag `--lines` is suggested for `--line`, but `head` does not take it: it is reported in
turn. -/
theorem lines_suggested_not_taken :
    let l : Linter := ⟨RuleTable.builtin, similarity⟩
    let inv := headInvocation "--lines".toList
    "--lines".toList ∈ l.flagSuggestions "head".toList "--line".toList ∧
      l.takes "head".toList "--lines".toList = false ∧
      (l.stageReport inv.stage).unsupported = ["head --lines".toList] := by
  intro l inv
  refine ⟨mem_flagSuggestions_line _ _ (by decide), by decide +kernel, ?_⟩
  have hreads : HasInvocation inv.stage inv := ⟨by decide +kernel, by decide +kernel⟩
  have hknown : l.isKnown inv.name = true := l.isKnown_iff.mpr (.inr (by decide +kernel))
  rw [Linter.unsupported_eq_entries hreads hknown]
  decide +kernel

end CrossShell
