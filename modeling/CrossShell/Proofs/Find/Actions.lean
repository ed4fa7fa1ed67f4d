import CrossShell.Proofs.Find.Operators
import CrossShell.Proofs.Stage.Finish
import Mathlib.Algebra.GroupWithZero.Nat

/-!
# Actions of a `find`

A `find` may delete the files it finds or run commands on them, any number of times and in any
order. A listing has one stage behind it, and there the last of these actions stands.

* `effects`: the deletions and runs of an expression, in order.
* `Action.stage?`: the stage that does an action to each file.
* `CarriesStages`: the stages of actions stand in a text, one behind the other.
* `plan_spec`: the plan of a conversion has the stage of the last effect.
* `actions_kept_iff`: a listing carries all actions exactly if there is at most one.
* `copy_lost`: a stage that copies files and then deletes them becomes one that only deletes.
-/

namespace CrossShell.Find

/-- What a part does to files: a deletion or a run. -/
def Part.effect? : Part → Option Action
  | action .delete => some .delete
  | action (.exec first rest) => some (.exec first rest)
  | _ => none

/-- The deletions and runs among parts, in order. -/
def effects (ps : List Part) : List Action := ps.filterMap Part.effect?

/-- The stage that does an action to each file. -/
def Action.stage? (nested : Nested) (inv : Invocation) : Action → Option Text
  | print => some "Select-Object -ExpandProperty FullName"
  | delete => some "Remove-Item -Force"
  | exec first rest => execStage? nested inv (first :: rest)

theorem effects_cons (p : Part) (ps : List Part) :
    effects (p :: ps) = p.effect?.toList ++ effects ps := by
  unfold effects
  rw [List.filterMap_cons]
  cases p.effect? <;> rfl

variable {nested : Nested} {inv : Invocation}

theorem Action.ne_nil_of_stage? {a : Action} {s : Text} (h : a.stage? nested inv = some s) :
    s ≠ [] := by
  cases a with
  | print => exact Option.some.inj h ▸ List.cons_ne_nil 'S' _
  | delete => exact Option.some.inj h ▸ List.cons_ne_nil 'R' _
  | exec first rest =>
    unfold stage? execStage? at h
    obtain ⟨line, -, h⟩ := Option.bind_eq_some_iff.mp h
    obtain ⟨command, -, h⟩ := Option.bind_eq_some_iff.mp h
    exact Option.some.inj h ▸ List.cons_ne_nil 'F' _

/-! ## The plan of a conversion -/

/-- `action` is the stage of the last of some actions, or `default` if there are none. -/
def IsLastStage (nested : Nested) (inv : Invocation) (actions : List Action)
    (default action : Option Text) : Prop :=
  match actions.getLast? with
  | some a => ∃ s, a.stage? nested inv = some s ∧ action = some s
  | none => action = default

theorem IsLastStage.exists_stage {actions : List Action} {default action : Option Text} {a : Action}
    (h : IsLastStage nested inv actions default action) (ha : actions.getLast? = some a) :
    ∃ s, a.stage? nested inv = some s ∧ action = some s := by
  unfold IsLastStage at h
  rwa [ha] at h

/-- A part adds its option or takes the place of the action before it. -/
theorem Part.extend?_spec {p : Part} {plan plan' : FindPlan}
    (h : p.extend? nested inv plan = some plan') :
    plan'.options = plan.options ++ (tests [p]).map Test.option ∧
      IsLastStage nested inv p.effect?.toList plan.action plan'.action := by
  cases p with
  | test t => obtain rfl := Option.some.inj h; exact ⟨rfl, rfl⟩
  | action a =>
    cases a with
    | print => obtain rfl := Option.some.inj h; exact ⟨(List.append_nil _).symm, rfl⟩
    | delete => obtain rfl := Option.some.inj h; exact ⟨(List.append_nil _).symm, _, rfl, rfl⟩
    | exec first rest =>
      obtain ⟨stage, hstage, rfl⟩ := Option.map_eq_some_iff.mp h
      exact ⟨(List.append_nil _).symm, stage, hstage, rfl⟩
  | operator o => cases h
  | other word => cases h

/-- The plan of parts has the options of their tests and the stage of their last effect. -/
theorem plan_spec {ps : List Part} {plan plan' : FindPlan}
    (h : ps.foldlM (Part.extend? nested inv) plan = some plan') :
    plan'.options = plan.options ++ (tests ps).map Test.option ∧
      IsLastStage nested inv (effects ps) plan.action plan'.action := by
  induction ps generalizing plan with
  | nil => obtain rfl := Option.some.inj h; exact ⟨(List.append_nil _).symm, rfl⟩
  | cons p ps ih =>
    rw [List.foldlM_cons] at h
    obtain ⟨middle, hp, hps⟩ := Option.bind_eq_some_iff.mp h
    obtain ⟨hoption, hfirst⟩ := Part.extend?_spec hp
    obtain ⟨hoptions, hlast⟩ := ih hps
    refine ⟨?_, ?_⟩
    · rw [hoptions, hoption, List.append_assoc, ← List.map_append, ← tests_append,
        List.singleton_append]
    · unfold IsLastStage at hfirst hlast ⊢
      rw [effects_cons, List.getLast?_append]
      cases hrest : (effects ps).getLast? with
      | some a => simpa [hrest] using hlast
      | none =>
        rw [hrest] at hlast
        simp only [Option.none_or, hlast]
        exact hfirst

/-! ## Listings -/

/-- The listing of a `find`, with what happens to the files. -/
def listingOf (inv : Invocation) (action : Text) : Text :=
  listing ((listedPaths inv.words).map (·.value)) (tests (listedParts inv.words)) action

/-- The same with the redirections of the `find`. -/
def listed (inv : Invocation) (action : Text) : Text := inv.finish (listingOf inv action)

theorem listed_injective (inv : Invocation) : Function.Injective (listed inv) := by
  intro a b h
  have hlisting := inv.finish_injective h
  unfold listingOf listing at hlisting
  exact List.append_cancel_left hlisting

/-- A `find` that is changed becomes a listing with the stage of its last effect. -/
theorem exists_listed {r : StageConverter} {depth : Nat} {stage : Text}
    (hinv : Invocation.ofTagged? stage (tagStage stage) = some inv) (hname : inv.name = "find")
    (hchanged : r.convertStageAt depth stage ≠ stage) :
    ∃ action, r.convertStageAt depth stage =
        listed inv (action.getD "Select-Object -ExpandProperty FullName") ∧
      IsLastStage (r.nestedAt depth) inv (effects (listedParts inv.words)) none action := by
  have hspecial : Special.ofName? inv.name = some .find := by
    rw [hname]
    decide
  have hconvert : convertFind? (r.nestedAt depth) inv = some (r.convertStageAt depth stage) :=
    StageConverter.counterpart?_of_changed hinv hspecial hchanged
  rw [convertFind?_eq] at hconvert
  obtain ⟨plan, hplan, htext⟩ := Option.map_eq_some_iff.mp hconvert
  obtain ⟨hoptions, hlast⟩ := plan_spec hplan
  refine ⟨plan.action, ?_, hlast⟩
  rw [← htext, hoptions]
  rfl

/-! ## Actions that a text carries -/

/-- `CarriesStages nested inv actions t`: the stages of the actions stand in `t`, in order. -/
inductive CarriesStages (nested : Nested) (inv : Invocation) : List Action → Text → Prop where
  | nil (t : Text) : CarriesStages nested inv [] t
  | cons {a : Action} {actions : List Action} {s t : Text} (front : Text) :
      a.stage? nested inv = some s → CarriesStages nested inv actions t →
        CarriesStages nested inv (a :: actions) (front ++ s ++ t)

namespace CarriesStages

variable {actions : List Action} {t : Text}

theorem singleton {a : Action} {s : Text} (h : a.stage? nested inv = some s) :
    CarriesStages nested inv [a] s := by
  simpa using CarriesStages.cons [] h (.nil [])

theorem exists_stage (h : CarriesStages nested inv actions t) :
    ∀ a ∈ actions, ∃ s, a.stage? nested inv = some s := by
  induction h with
  | nil t => simp
  | cons front ha _ ih => simpa [ha] using ih

/-- What is carried has no more characters than what carries it. -/
theorem sum_length_le (h : CarriesStages nested inv actions t) :
    (actions.map fun a => ((a.stage? nested inv).getD []).length).sum ≤ t.length := by
  induction h with
  | nil t => simp
  | cons front ha _ ih =>
    simp only [List.map_cons, List.sum_cons, ha, Option.getD_some, List.length_append]
    omega

end CarriesStages

/-- The stage of the last of several actions is too short for all of them. -/
theorem length_le_one_of_carries {actions : List Action} {action : Option Text} {default : Text}
    (hlast : IsLastStage nested inv actions none action)
    (h : CarriesStages nested inv actions (action.getD default)) :
    actions.length ≤ 1 := by
  cases actions with
  | nil => simp
  | cons a as =>
    rcases List.eq_nil_or_concat as with rfl | ⟨init, b, rfl⟩
    · simp
    obtain ⟨s, hs⟩ := h.exists_stage a List.mem_cons_self
    obtain ⟨t, ht, rfl⟩ := hlast.exists_stage (a := b)
      (by rw [List.concat_eq_append, ← List.cons_append, List.getLast?_append]; rfl)
    have hpos := List.length_pos_iff.mpr (Action.ne_nil_of_stage? hs)
    have hshort := h.sum_length_le
    simp [hs, ht] at hshort
    omega

/-- At most one action is carried by its own stage. -/
theorem carries_of_length_le_one {actions : List Action} {action : Option Text} {default : Text}
    (hlast : IsLastStage nested inv actions none action) (h : actions.length ≤ 1) :
    CarriesStages nested inv actions (action.getD default) := by
  match actions with
  | [] => exact .nil _
  | [a] =>
    obtain ⟨s, hs, rfl⟩ := hlast.exists_stage rfl
    exact .singleton hs
  | _ :: _ :: _ => simp at h

/-- A listing that carries every action has at most one to carry. -/
theorem length_effects_le_one {r : StageConverter} {depth : Nat} {stage : Text}
    (hinv : Invocation.ofTagged? stage (tagStage stage) = some inv) (hname : inv.name = "find")
    (hchanged : r.convertStageAt depth stage ≠ stage)
    (h : ∃ action, r.convertStageAt depth stage = listed inv action ∧
      CarriesStages (r.nestedAt depth) inv (effects (listedParts inv.words)) action) :
    (effects (listedParts inv.words)).length ≤ 1 := by
  obtain ⟨action, hlisted, hlast⟩ := exists_listed hinv hname hchanged
  obtain ⟨action', hlisted', hcarries⟩ := h
  rw [← listed_injective inv (hlisted.symm.trans hlisted')] at hcarries
  exact length_le_one_of_carries hlast hcarries

/-- **Actions.** For every table, every target, every number of levels that are left for wrapped
commands and every `find`: that a stage which is changed becomes a listing that carries the
deletions and runs of its expression, each by its own stage and in the order written, holds exactly
if it has at most one of them. In any case the stage behind the listing is that of the last one. -/
theorem actions_kept_iff (r : StageConverter) (depth : Nat) {stage : Text} {inv : Invocation}
    (hinv : Invocation.ofTagged? stage (tagStage stage) = some inv) (hname : inv.name = "find") :
    ((r.convertStageAt depth stage ≠ stage → ∃ action, r.convertStageAt depth stage =
          listed inv action ∧
        CarriesStages (r.nestedAt depth) inv (effects (listedParts inv.words)) action) ↔
      r.convertStageAt depth stage = stage ∨ (effects (listedParts inv.words)).length ≤ 1) ∧
    (r.convertStageAt depth stage ≠ stage → ∀ a ∈ (effects (listedParts inv.words)).getLast?,
      ∃ action, a.stage? (r.nestedAt depth) inv = some action ∧
        r.convertStageAt depth stage = listed inv action) := by
  refine ⟨⟨fun hkept => ?_, ?_⟩, fun hchanged a ha => ?_⟩
  · exact or_iff_not_imp_left.mpr fun hchanged =>
      length_effects_le_one hinv hname hchanged (hkept hchanged)
  · intro hcases hchanged
    obtain ⟨action, hlisted, hlast⟩ := exists_listed hinv hname hchanged
    exact ⟨_, hlisted, carries_of_length_le_one hlast (hcases.resolve_left hchanged)⟩
  · obtain ⟨action, hlisted, hlast⟩ := exists_listed hinv hname hchanged
    obtain ⟨s, hs, rfl⟩ := hlast.exists_stage ha
    exact ⟨s, hs, hlisted⟩

/-- A run with a redirection in it and a `-print` behind it: the listing carries the run. A
deletion inside of the run is none of this `find`. -/
theorem actions_kept_search :
    let r : StageConverter := ⟨.builtin, .powerShell (some 7)⟩
    let stage : Text := "find src -type f -exec grep -delete x \x7b\x7d + -print 2>log"
    Invocation.ofTagged? stage (tagStage stage) = some (invocationOf stage) ∧
      (effects (listedParts (invocationOf stage).words)).length = 1 ∧
      ∃ action, r.convertStageAt 8 stage = listed (invocationOf stage) action ∧
        CarriesStages (r.nestedAt 8) (invocationOf stage)
          (effects (listedParts (invocationOf stage).words)) action := by
  intro r stage
  obtain ⟨hinv, hname, hone, hchanged⟩ :
      Invocation.ofTagged? stage (tagStage stage) = some (invocationOf stage) ∧
        (invocationOf stage).name = "find" ∧
        (effects (listedParts (invocationOf stage).words)).length = 1 ∧
        r.convertStageAt 8 stage ≠ stage := by decide +kernel
  have hkept := (actions_kept_iff r 8 hinv hname).1.mpr (.inr (Nat.le_of_eq hone))
  exact ⟨hinv, hone, hkept hchanged⟩

/-- **A lost copy.** This stage runs a copy of each file and then deletes it. The listing that it
becomes only deletes, and carries no two actions. -/
theorem copy_lost :
    let r : StageConverter := ⟨.builtin, .powerShell (some 7)⟩
    let stage : Text := "find . -exec cp \x7b\x7d bak \\; -delete"
    Invocation.ofTagged? stage (tagStage stage) = some (invocationOf stage) ∧
      (invocationOf stage).name = "find" ∧
      (effects (listedParts (invocationOf stage).words)).length = 2 ∧
      r.convertStage stage = "Get-ChildItem -Path . -Recurse | Remove-Item -Force" ∧
      r.convertStage stage ≠ stage ∧
      ¬∃ action, r.convertStageAt maxDepth stage = listed (invocationOf stage) action ∧
        CarriesStages (r.nestedAt maxDepth) (invocationOf stage)
          (effects (listedParts (invocationOf stage).words)) action := by
  intro r stage
  obtain ⟨hinv, hname, htwo, hconvert, hchanged⟩ :
      Invocation.ofTagged? stage (tagStage stage) = some (invocationOf stage) ∧
        (invocationOf stage).name = "find" ∧
        (effects (listedParts (invocationOf stage).words)).length = 2 ∧
        r.convertStage stage = "Get-ChildItem -Path . -Recurse | Remove-Item -Force" ∧
        r.convertStage stage ≠ stage := by decide +kernel
  refine ⟨hinv, hname, htwo, hconvert, hchanged, fun hkept => ?_⟩
  have hle := length_effects_le_one hinv hname hchanged hkept
  rw [htwo] at hle
  exact absurd hle (by decide)

end CrossShell.Find
