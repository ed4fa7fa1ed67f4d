import CrossShell.Proofs.Rule.Registration
import CrossShell.Proofs.Special.Wrapping
import CrossShell.Proofs.Written.Commands
import CrossShell.Proofs.Written.Filters

/-!
# What a stage is converted to

A stage whose words are self-contained becomes a text that starts like a command, has no connector
and closes what it opens. This is so for every rule and for every mapping whose own texts are
self-contained, and for commands in one another.

* `begins_convertSudo`, `begins_convertXargs`, `begins_convertFind`: commands that run others.
* `Invocation.Legible`: the words of an invocation, and the texts that its rule cuts out of them or
  hands on, are self-contained. `LegibleAt` says this of a stage and of the commands in it.
* `begins_counterpart`, `begins_mapped`: what the rules and the mappings write.
* `RuleTable.legible_withOverlay`: the mappings that come with the program are no obstacle.
* `begins_convertStage`: what a stage is converted to.
-/

namespace CrossShell

open Text (singleQuoted)

variable {inv : Invocation} {text : Text}

/-! ## Commands that run others -/

/-- The line that a rule hands on and puts as it is into what it writes. What runs elevated is
written as a literal. -/
def handedOn? (inv : Invocation) : Special → Option Text
  | .xargs => itemCommand? inv
  | .find => (inv.textOf? (wrappedWords inv .find)).map withFoundFile
  | _ => none

theorem leads_findOption (t : Find.Test) : Leads .start t.option .firm := by
  cases t with
  | name pattern =>
    exact ((leads_literal rfl (by decide)).append (leads_singleQuoted pattern)).relax (by decide)
  | iname pattern =>
    exact ((leads_literal rfl (by decide)).append (leads_singleQuoted pattern)).relax (by decide)
  | file => exact leads_literal rfl (by decide)
  | directory => exact leads_literal rfl (by decide)
  | within depth =>
    exact ((leads_literal rfl (by decide)).append (leads_ofNat depth)).relax (by decide)

section Wrappers

variable {nested : Nested}

/-- The stage of the last thing that a `find` does to files. -/
theorem leads_lastStage {action : Option Text}
    (hnested : ∀ line ∈ handedOn? inv .find, ∀ command ∈ nested line,
      Leads .start command .resting)
    (hlast : Find.IsLastStage nested inv (Find.effects (Find.listedParts inv.words)) none action) :
    Leads .start (action.getD "Select-Object -ExpandProperty FullName") .firm := by
  have hlist : Leads .start "Select-Object -ExpandProperty FullName" .firm :=
    leads_literal rfl (by decide)
  unfold handedOn? wrappedWords at hnested
  unfold Find.IsLastStage at hlast
  cases heffect : (Find.effects (Find.listedParts inv.words)).getLast? with
  | none =>
    rw [heffect] at hlast
    exact hlast ▸ hlist
  | some a =>
    rw [heffect] at hlast hnested
    obtain ⟨s, hs, rfl⟩ := hlast
    cases a with
    | print => exact Option.some.inj hs ▸ hlist
    | delete => exact Option.some.inj hs ▸ leads_literal rfl (by decide)
    | exec first rest =>
      unfold Find.Action.stage? execStage? at hs
      obtain ⟨line, hline, hs⟩ := Option.bind_eq_some_iff.mp hs
      obtain ⟨command, hcommand, hs⟩ := Option.bind_eq_some_iff.mp hs
      cases hs
      exact (begins_forEachItem (hnested _ (Option.map_eq_some_iff.mpr ⟨line, hline, rfl⟩)
        command hcommand)).leads

variable (h : inv.SelfContained)
include h

theorem begins_convertSudo {target : Target} (ht : convertSudo? target nested inv = some text) :
    Begins text .firm := by
  obtain ⟨index, -, ht⟩ := Option.bind_eq_some_iff.mp ht
  obtain ⟨line, -, ht⟩ := Option.bind_eq_some_iff.mp ht
  obtain ⟨command, -, ht⟩ := Option.bind_eq_some_iff.mp ht
  cases ht
  have hfront : Begins "Start-Process -FilePath " .start := begins_literal rfl (by decide)
  have hexecutable : Leads .start target.executable .firm := by
    unfold Target.executable
    split <;> exact leads_literal rfl (by decide)
  exact h.begins_finish (((hfront.append hexecutable).literal rfl (by decide)).append
    (leads_singleQuoted command)).firm

theorem begins_convertXargs
    (hnested : ∀ line ∈ handedOn? inv .xargs, ∀ command ∈ nested line,
      Leads .start command .resting)
    (ht : convertXargs? nested inv = some text) : Begins text .firm := by
  obtain ⟨line, hline, ht⟩ := Option.bind_eq_some_iff.mp ht
  obtain ⟨command, hcommand, ht⟩ := Option.bind_eq_some_iff.mp ht
  cases ht
  have hbody := begins_forEachItem (hnested line hline command hcommand)
  refine h.begins_finish ?_
  split
  · have hsplit : Begins (forEachItem "$_ -split \"`0\"") .firm :=
      begins_forEachItem (leads_literal rfl (by decide))
    have hblock : Leads .settled (scriptBlock "$_") .settled :=
      leads_scriptBlock (leads_literal rfl (by decide))
    exact (((hsplit.literal rfl (by decide)).append hblock).literal rfl (by decide)).append
      hbody.leads
  · exact hbody

theorem begins_convertFind
    (hnested : ∀ line ∈ handedOn? inv .find, ∀ command ∈ nested line,
      Leads .start command .resting)
    (ht : convertFind? nested inv = some text) : Begins text .firm := by
  rw [Find.convertFind?_eq] at ht
  obtain ⟨plan, hplan, rfl⟩ := Option.map_eq_some_iff.mp ht
  obtain ⟨hoptions, hlast⟩ := Find.plan_spec hplan
  have hpaths : ∀ w ∈ (Find.listedPaths inv.words).map (·.value), SelfContained w := by
    intro w hw
    obtain ⟨t, ht, rfl⟩ := List.mem_map.mp hw
    exact h.words t ((List.takeWhile_sublist _).subset ht)
  have hfront : Begins "Get-ChildItem -Path " .start := begins_literal rfl (by decide)
  have hsearch : Begins (Find.search ((Find.listedPaths inv.words).map (·.value))) .firm :=
    (hfront.append (leads_pathList hpaths)).literal rfl (by decide)
  have hall : ∀ option ∈ plan.options, Leads .start option .firm := by
    intro option hoption
    rw [hoptions] at hoption
    obtain ⟨t, -, rfl⟩ := List.mem_map.mp hoption
    exact leads_findOption t
  exact h.begins_finish (((begins_join (leads_literal rfl (by decide)) hsearch hall).append
    leads_pipe.firm).append (leads_lastStage hnested hlast))

end Wrappers

/-! ## Legible invocations -/

/-- The texts that some rules cut out of a word and write without what they cut off: an owner
without the group, a unit without the suffix, a server without its mark, a value without quotes. -/
structure Special.PartsSelfContained (s : Special) (inv : Invocation) : Prop where
  owner : s = .chown → ∀ w ∈ (inv.positionals []).head?, SelfContained (w.takeWhile (· != ':'))
  units : s = .systemctl → ∀ w ∈ inv.positionals [], ∀ unit ∈ Text.dropBack? w ".service",
    SelfContained unit
  servers : s = .dig → ∀ w ∈ inv.positionals [], ∀ server ∈ Text.dropFront? w "@",
    SelfContained server
  values : s = .exportVars → ∀ w ∈ inv.positionals [], ∀ v ∈ quotedValue? w, Quotable v

instance (s : Special) (inv : Invocation) : Decidable (s.PartsSelfContained inv) :=
  decidable_of_iff
    ((s = .chown → ∀ w ∈ (inv.positionals []).head?, SelfContained (w.takeWhile (· != ':'))) ∧
      (s = .systemctl → ∀ w ∈ inv.positionals [], ∀ unit ∈ Text.dropBack? w ".service",
        SelfContained unit) ∧
      (s = .dig → ∀ w ∈ inv.positionals [], ∀ server ∈ Text.dropFront? w "@",
        SelfContained server) ∧
      (s = .exportVars → ∀ w ∈ inv.positionals [], ∀ v ∈ quotedValue? w, Quotable v))
    ⟨fun h => ⟨h.1, h.2.1, h.2.2.1, h.2.2.2⟩, fun h => ⟨h.owner, h.units, h.servers, h.values⟩⟩

/-- The words of an invocation are self-contained, and so is what its rule cuts out of them. For a
command with a mapping this holds of the words without their quotes too. A line that is handed on
as it is is self-contained and satisfies `nested`. -/
structure Invocation.Legible (nested : Text → Prop) (inv : Invocation) : Prop where
  selfContained : inv.SelfContained
  bare : Special.ofName? inv.name = none → ∀ w ∈ inv.words, w.isFlag = false →
    CrossShell.SelfContained (Text.withoutQuotes w.value)
  parts : ∀ s ∈ Special.ofName? inv.name, s.PartsSelfContained inv
  handedOn : ∀ s ∈ Special.ofName? inv.name, ∀ line ∈ handedOn? inv s,
    CrossShell.SelfContained line ∧ nested line

instance (nested : Text → Prop) [DecidablePred nested] (inv : Invocation) :
    Decidable (inv.Legible nested) :=
  decidable_of_iff
    (inv.SelfContained ∧
      (Special.ofName? inv.name = none → ∀ w ∈ inv.words, w.isFlag = false →
        SelfContained (Text.withoutQuotes w.value)) ∧
      (∀ s ∈ Special.ofName? inv.name, s.PartsSelfContained inv) ∧
      ∀ s ∈ Special.ofName? inv.name, ∀ line ∈ handedOn? inv s, SelfContained line ∧ nested line)
    ⟨fun h => ⟨h.1, h.2.1, h.2.2.1, h.2.2.2⟩,
      fun h => ⟨h.selfContained, h.bare, h.parts, h.handedOn⟩⟩

theorem begins_counterpart {target : Target} {nested : Nested} {s : Special}
    (h : inv.SelfContained) (hparts : s.PartsSelfContained inv)
    (hnested : ∀ line ∈ handedOn? inv s, ∀ command ∈ nested line, Leads .start command .resting)
    (ht : s.counterpart? target nested inv = some text) : Begins text .firm := by
  cases s with
  | head => exact begins_convertHead h ht
  | tail => exact begins_convertTail h ht
  | wc => exact Option.some.inj ht ▸ begins_convertWc h
  | sed => exact begins_convertSed h ht
  | awk => exact begins_convertAwk h ht
  | cut => exact begins_convertCut h ht
  | tr => exact begins_convertTr h ht
  | nl => exact Option.some.inj ht ▸ begins_convertNl h
  | grep => exact begins_convertGrep h ht
  | less => exact Option.some.inj ht ▸ begins_convertPager h
  | more => exact Option.some.inj ht ▸ begins_convertPager h
  | rsync => exact begins_convertRsync h ht
  | du => exact Option.some.inj ht ▸ begins_convertDu h
  | chmod => exact begins_convertChmod h ht
  | chown => exact begins_convertChown h (hparts.owner rfl) ht
  | ln => exact begins_convertLn h ht
  | find => exact begins_convertFind h hnested ht
  | gzip => exact begins_convertGzip h ht
  | gunzip => exact begins_convertGunzip h ht
  | mktemp => exact Option.some.inj ht ▸ begins_convertMktemp h
  | rmdir => exact begins_convertRmdir h ht
  | systemctl => exact begins_convertSystemctl h (hparts.units rfl) ht
  | ping => exact begins_convertPing h ht
  | top => exact begins_convertTop h ht
  | netstat => exact begins_convertNetstat h ht
  | dig => exact begins_convertDig h (hparts.servers rfl) ht
  | uptime => exact begins_convertUptime h ht
  | free => exact begins_convertFree h ht
  | whoami => exact begins_convertWhoami h ht
  | sleep => exact begins_convertSleep h ht
  | superuser => exact begins_convertSudo h ht
  | xargs => exact begins_convertXargs h hnested ht
  | exportVars => exact begins_convertExport h (hparts.values rfl) ht
  | unsetVars => exact begins_convertUnset h ht

/-! ## Mappings -/

/-- The texts of a mapping are self-contained, and what takes the place of the command does not
start with a blank. -/
structure Mapping.Legible (m : Mapping) : Prop where
  verb : SelfContained m.verb
  opens : ∃ c ∈ m.verb.head?, Text.isBlank c = false
  flags : ∀ e ∈ m.flags, SelfContained e.2

instance (m : Mapping) : Decidable m.Legible :=
  decidable_of_iff (SelfContained m.verb ∧ (∃ c ∈ m.verb.head?, Text.isBlank c = false) ∧
      ∀ e ∈ m.flags, SelfContained e.2)
    ⟨fun h => ⟨h.1, h.2.1, h.2.2⟩, fun h => ⟨h.verb, h.opens, h.flags⟩⟩

theorem Mapping.Legible.begins_verb {m : Mapping} (h : m.Legible) : Begins m.verb .firm := by
  obtain ⟨c, hc, hblank⟩ := h.opens
  obtain ⟨u, hu⟩ := List.head?_eq_some_iff.mp hc
  exact ⟨h.verb.leads, c, u, hu, hblank⟩

theorem FlagTable.mem_of_get? {table : FlagTable} {flag image : Text}
    (h : table.get? flag = some image) : (flag, image) ∈ table := by
  obtain ⟨l, r, rfl, -⟩ := List.lookup_eq_some_iff.mp h
  simp

theorem begins_mapped {m : Mapping} (hm : m.Legible) (h : inv.SelfContained)
    (hbare : ∀ w ∈ inv.words, w.isFlag = false → SelfContained (Text.withoutQuotes w.value))
    (ht : m.counterpart? inv = some text) : Begins text .firm := by
  unfold Mapping.counterpart? at ht
  split at ht
  · cases ht
  rename_i images himages
  split at ht
  · cases ht
  cases ht
  have hwords : ∀ u ∈ images, Leads .start u .firm := by
    intro u hu
    obtain ⟨w, hw, himage⟩ := exists_of_mem_mapM himages u hu
    unfold Mapping.image? at himage
    split at himage
    · exact (hm.flags _ (FlagTable.mem_of_get? himage)).leads
    · rename_i hflag
      cases himage
      exact (hbare w hw (Bool.eq_false_iff.mpr hflag)).leads
  rw [joinWords_cons]
  exact h.begins_finish (hm.begins_verb.appendWord (leads_joinWords hwords))

namespace RuleTable

/-- The texts of all mappings are self-contained. -/
def Legible (table : RuleTable) : Prop := ∀ m ∈ table.mappings, m.Legible

theorem legible_builtin : builtin.Legible := by
  have hmappings : ∀ m ∈ builtinMappings, m.Legible := by decide +kernel
  rw [Legible, indexed_builtin.2]
  exact hmappings

theorem Legible.registerChecked {table : RuleTable} (h : table.Legible) {m : Mapping}
    (hm : m.Legible) : (table.registerChecked m).Legible := by
  unfold RuleTable.registerChecked RuleTable.register
  split
  · exact h
  · split
    · exact h
    · intro k hk
      rcases List.mem_append.mp hk with hk | hk
      · exact h k hk
      · exact List.mem_singleton.mp hk ▸ hm

/-- With the mappings that come with the program, only those of the user are left to look at. -/
theorem legible_withOverlay {overlay : List Mapping} (h : ∀ m ∈ overlay, m.Legible) :
    (withOverlay overlay).Legible := by
  induction overlay using List.reverseRecOn with
  | nil =>
    rw [withOverlay, List.foldl_nil]
    exact legible_builtin
  | append_singleton overlay m ih =>
    rw [withOverlay_append]
    exact (ih fun k hk => h k (List.mem_append_left _ hk)).registerChecked (h m (by simp))

theorem Legible.get {table : RuleTable} (h : table.Legible) {name : Text} {m : Mapping}
    (hm : table.get? name = some m) : m.Legible := by
  obtain ⟨i, -, hi⟩ := Option.bind_eq_some_iff.mp hm
  exact h m (List.mem_of_getElem? hi)

end RuleTable

/-! ## Stages -/

/-- The invocation of a stage is legible, and so are the commands in it, `depth` levels in. -/
def LegibleAt : (depth : Nat) → Text → Prop
  | 0, stage => ∀ inv ∈ Invocation.ofTagged? stage (tagStage stage), inv.Legible fun _ => True
  | depth + 1, stage =>
    ∀ inv ∈ Invocation.ofTagged? stage (tagStage stage), inv.Legible (LegibleAt depth)

/-- The condition is decided level by level. -/
instance decidableLegibleAt : (depth : Nat) → DecidablePred (LegibleAt depth)
  | 0, stage => inferInstanceAs (Decidable (∀ inv ∈ Invocation.ofTagged? stage (tagStage stage),
      inv.Legible fun _ => True))
  | depth + 1, stage =>
    have := decidableLegibleAt depth
    inferInstanceAs (Decidable (∀ inv ∈ Invocation.ofTagged? stage (tagStage stage),
      inv.Legible (LegibleAt depth)))

/-- A stage is legible, as deep as it is converted. -/
def Legible (stage : Text) : Prop := LegibleAt maxDepth stage

instance (stage : Text) : Decidable (Legible stage) := decidableLegibleAt maxDepth stage

section

variable {r : StageConverter} (hr : r.rules.Legible)
include hr

theorem begins_convertInvocation {nested : Nested} {ok : Text → Prop} (h : inv.Legible ok)
    (hnested : ∀ line, SelfContained line → ok line → ∀ command ∈ nested line,
      Leads .start command .resting)
    (ht : r.convertInvocation? nested inv = some text) : Begins text .firm := by
  unfold StageConverter.convertInvocation? at ht
  split at ht
  · rename_i s hs
    split at ht
    · refine begins_counterpart h.selfContained (h.parts s hs) (fun line hline => ?_) ht
      obtain ⟨hclosed, hok⟩ := h.handedOn s hs line hline
      exact hnested line hclosed hok
    · cases ht
  · rename_i hs
    obtain ⟨m, hm, ht⟩ := Option.bind_eq_some_iff.mp ht
    exact begins_mapped (hr.get hm) h.selfContained (h.bare hs) ht

/-- A legible stage that has a counterpart. The induction is on how deep commands may be nested:
what is handed on is one level less deep. -/
theorem begins_convertStage {depth : Nat} {stage : Text} (h : LegibleAt depth stage)
    (ht : r.convertStage? (r.nestedAt depth) stage = some text) : Begins text .firm := by
  induction depth generalizing stage text with
  | zero =>
    obtain ⟨-, -, -, inv, hinv, ht⟩ := StageConverter.convertStage?_eq_some_iff.mp ht
    exact begins_convertInvocation hr (h inv hinv) (fun line _ _ command hc => by cases hc) ht
  | succ depth ih =>
    obtain ⟨-, -, -, inv, hinv, ht⟩ := StageConverter.convertStage?_eq_some_iff.mp ht
    refine begins_convertInvocation hr (h inv hinv) (fun line hclosed hok command hc => ?_) ht
    obtain rfl : r.convertStageAt depth line = command := Option.some.inj hc
    rw [StageConverter.convertStageAt_eq]
    cases hcounterpart : r.convertStage? (r.nestedAt depth) line with
    | none => exact hclosed.leads.relax (by decide)
    | some command => exact (ih hok hcounterpart).leads.relax (by decide)

end

end CrossShell
