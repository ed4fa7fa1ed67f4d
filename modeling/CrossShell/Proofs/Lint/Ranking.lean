import CrossShell.Proofs.Lint.Known
import CrossShell.Proofs.Rule.Registration
import Mathlib.Data.List.Infix
import Mathlib.Data.Nat.Dist
import Mathlib.Data.Prod.Lex

/-!
# The best few near matches

Candidates are sorted by their scores, by the characters they share with the query and by their
names, repeats are dropped, and what is left is cut. Equal candidates have equal scores and stand
next to each other when they are sorted, whatever the scores are, so dropping neighbours is enough.

* `rankKey`: where a candidate stands for a query; `rankKey_injective`: only equal candidates stand
  in the same place.
* `BestFew`: what it is to be the best few of some candidates.
* `bestFew_take`, `bestFew_rank`: a cut of a sorted list gives the best few, and so does ranking.
* `Linter.CommandCandidate`, `Linter.FlagCandidate`: what is close to a name or to a flag.
* `suggestions_are_best`: both kinds of suggestions, for every table and every score.
* `nothing_close_to_nothing`: what is empty, dashes aside, is part of everything, but neither
  suggested nor given suggestions.
-/

namespace CrossShell

/-! ## The order of candidates -/

/-- Where a candidate stands for a query: the greatest score first, then the most characters of the
query, then the names in order. -/
def rankKey (score : Text → Text → Int) (query t : Text) : ℤᵒᵈ ×ₗ ℕᵒᵈ ×ₗ Text :=
  toLex (.toDual (score query t), toLex (.toDual (query.countP (· ∈ t)), t))

theorem rankKey_injective (score : Text → Text → Int) (query : Text) :
    Function.Injective (rankKey score query) := by
  intro s t h
  exact (Prod.ext_iff.mp (Prod.ext_iff.mp h).2).2

theorem Ranked.le_of_iff {score : Text → Text → Int} {query s t : Text} :
    Ranked.le (.of score query s) (.of score query t) = true ↔
      rankKey score query s ≤ rankKey score query t := by
  have hshared (u : Text) : query.countP (u.contains ·) = query.countP (· ∈ u) := by simp
  simp only [Ranked.le, Ranked.of, rankKey, hshared, Prod.Lex.toLex_le_toLex,
    OrderDual.toDual_lt_toDual, OrderDual.toDual_inj]
  by_cases hscore : score query s = score query t
  · by_cases hcount : query.countP (· ∈ s) = query.countP (· ∈ t)
    · simp [hscore, hcount, ← not_before_iff_le]
    · simp [hscore, hcount]
  · simp [hscore]

/-! ## The best few -/

/-- Some texts are the best few of the candidates: there are no more of them than the limit, they
stand in order and each once, and a candidate is left out only if the limit is reached and none of
them comes after it. -/
structure BestFew {α : Type*} [LT α] (limit : Nat) (key : Text → α)
    (IsCandidate : Text → Prop) (texts : List Text) : Prop where
  length_le : texts.length ≤ limit
  nodup : texts.Nodup
  inOrder : texts.Pairwise fun s t => key s < key t
  isCandidate : ∀ t ∈ texts, IsCandidate t
  complete : texts.length < limit → ∀ t, IsCandidate t → t ∈ texts
  best : ∀ t, IsCandidate t → t ∉ texts → ∀ u ∈ texts, ¬key t < key u

/-- The front of candidates that stand in strict order. -/
theorem bestFew_take {α : Type*} [Preorder α] {key : Text → α} {texts : List Text}
    (h : texts.Pairwise fun s t => key s < key t) (limit : Nat) :
    BestFew limit key (· ∈ texts) (texts.take limit) where
  length_le := List.length_take_le limit texts
  nodup := by
    refine List.Pairwise.imp ?_ h.take
    rintro s _ hlt rfl
    exact lt_irrefl _ hlt
  inOrder := h.take
  isCandidate := fun _ ht => List.mem_of_mem_take ht
  complete := by
    intro hroom t ht
    rw [List.length_take, min_lt_iff] at hroom
    rwa [List.take_of_length_le (by omega)]
  best := by
    intro t ht hout u hu
    have hsplit := List.take_append_drop limit texts
    have hrest : t ∈ texts.drop limit := by
      rw [← hsplit, List.mem_append] at ht
      exact ht.resolve_left hout
    rw [← hsplit, List.pairwise_append] at h
    exact (h.2.2 u hu t hrest).asymm

theorem BestFew.congr {α : Type*} [LT α] {limit : Nat} {key : Text → α}
    {P Q : Text → Prop} {texts : List Text} (h : BestFew limit key P texts) (hPQ : ∀ t, P t ↔ Q t) :
    BestFew limit key Q texts := by
  rwa [← show P = Q from funext fun t => propext (hPQ t)]

/-- Ranking gives the best few of the candidates, however often each of them stands there. -/
theorem bestFew_rank (score : Text → Text → Int) (query : Text) (candidates : List Text) :
    BestFew 3 (rankKey score query) (· ∈ candidates) (rank score query candidates) := by
  let le (s t : Text) : Bool := Ranked.le (.of score query s) (.of score query t)
  have hsorted : ((candidates.map (Ranked.of score query)).mergeSort Ranked.le).map (·.candidate) =
      candidates.mergeSort le := by
    rw [← List.map_mergeSort (r := le) (f := Ranked.of score query) fun _ _ _ _ => rfl,
      List.map_map]
    exact List.map_id _
  have horder : (candidates.mergeSort le).Pairwise fun s t =>
      rankKey score query s ≤ rankKey score query t := by
    refine (List.pairwise_mergeSort (fun s t u hst htu => ?_) (fun s t => ?_) candidates).imp
      Ranked.le_of_iff.mp
    · exact Ranked.le_of_iff.mpr ((Ranked.le_of_iff.mp hst).trans (Ranked.le_of_iff.mp htu))
    · rw [Bool.or_eq_true, Ranked.le_of_iff, Ranked.le_of_iff]
      exact le_total _ _
  have hstrict := pairwise_dropRepeats (rankKey_injective score query) horder
  have hmem (t : Text) : t ∈ dropRepeats (candidates.mergeSort le) ↔ t ∈ candidates := by
    rw [mem_dropRepeats, List.mem_mergeSort]
  rw [rank, hsorted]
  exact (bestFew_take hstrict maxSuggestions).congr hmem

theorem length_dropRepeats_le (ts : List Text) : (dropRepeats ts).length ≤ ts.length := by
  fun_induction dropRepeats ts with
  | case1 => exact Nat.le_refl 0
  | case2 => exact Nat.le_refl 1
  | case3 t ts ih => exact ih.trans (Nat.le_succ _)
  | case4 s t ts hne ih => exact Nat.succ_le_succ ih

/-- Nothing is cut off if there are only a few candidates. -/
theorem mem_rank_of_length_le {score : Text → Text → Int} {query t : Text}
    {candidates : List Text} (h : candidates.length ≤ maxSuggestions) (ht : t ∈ candidates) :
    t ∈ rank score query candidates := by
  have hlength := length_dropRepeats_le
    (((candidates.map (Ranked.of score query)).mergeSort Ranked.le).map (·.candidate))
  rw [List.length_map, List.length_mergeSort, List.length_map] at hlength
  rw [rank, List.take_of_length_le (hlength.trans h), mem_dropRepeats]
  simpa [Ranked.of] using ht

/-! ## What is close -/

theorem Text.occursIn_iff {part t : Text} : Text.occursIn part t = true ↔ part <:+: t := by
  induction t with
  | nil => simp [Text.occursIn]
  | cons c t ih =>
    rw [Text.occursIn, Bool.or_eq_true, List.isPrefixOf_iff_prefix, ih, List.infix_cons_iff]

namespace Linter

/-- A known command, other than the name itself, that has the name as a part or is a part of it, or
whose length differs from that of the name by at most two. -/
def CommandCandidate (l : Linter) (name t : Text) : Prop :=
  (t ∈ l.rules.names ∨ t ∈ Special.all.map (·.name)) ∧ t ≠ name ∧
    (name <:+: t ∨ t <:+: name ∨ Nat.dist (Text.size t) (Text.size name) ≤ 2)

/-- A flag that a command allows, other than the flag itself, that has the flag as a part or is a
part of it, dashes in front aside. -/
def FlagCandidate (l : Linter) (command flag t : Text) : Prop :=
  t ∈ l.suggestibleFlags command ∧ t ≠ flag ∧
    (bareFlag flag <:+: bareFlag t ∨ bareFlag t <:+: bareFlag flag)

theorem mem_filter_isCloseCommand (l : Linter) {name t : Text} :
    t ∈ l.knownCommands.toList.filter (isCloseCommand name) ↔ l.CommandCandidate name t := by
  have hdist : (Text.size t ≤ Text.size name + 2 ∧ Text.size name ≤ Text.size t + 2) ↔
      Nat.dist (Text.size t) (Text.size name) ≤ 2 := by
    unfold Nat.dist
    omega
  simp only [knownCommands, List.mem_filter, mem_inNameOrder, List.mem_append, isCloseCommand,
    Bool.and_eq_true, Bool.or_eq_true, bne_iff_ne, Text.occursIn_iff, decide_eq_true_eq, hdist,
    CommandCandidate, or_assoc]

theorem mem_filter_isCloseFlag (l : Linter) {command flag t : Text} :
    t ∈ (l.suggestibleFlags command).filter (isCloseFlag flag) ↔
      bareFlag t ≠ [] ∧ l.FlagCandidate command flag t := by
  simp only [List.mem_filter, isCloseFlag, Bool.and_eq_true, Bool.or_eq_true, bne_iff_ne,
    Bool.not_eq_true', List.isEmpty_eq_false_iff, Text.occursIn_iff, FlagCandidate]
  tauto

theorem bestFew_commandSuggestions (l : Linter) (name : Text) :
    BestFew 3 (rankKey l.score name) (fun t => name ≠ [] ∧ l.CommandCandidate name t)
      (l.commandSuggestions name) := by
  by_cases hname : name = []
  · subst hname
    exact (bestFew_take .nil 3).congr fun t => by simp
  · rw [commandSuggestions, if_neg (by simpa using hname)]
    refine (bestFew_rank _ _ _).congr fun t => ?_
    rw [l.mem_filter_isCloseCommand]
    exact (and_iff_right hname).symm

theorem bestFew_flagSuggestions (l : Linter) (command flag : Text) :
    BestFew 3 (rankKey l.score flag)
      (fun t => bareFlag flag ≠ [] ∧ bareFlag t ≠ [] ∧ l.FlagCandidate command flag t)
      (l.flagSuggestions command flag) := by
  by_cases hflag : bareFlag flag = []
  · rw [flagSuggestions, if_pos (by simpa using hflag)]
    exact (bestFew_take .nil 3).congr fun t => by simp [hflag]
  · rw [flagSuggestions, if_neg (by simpa using hflag)]
    refine (bestFew_rank _ _ _).congr fun t => ?_
    rw [l.mem_filter_isCloseFlag]
    exact (and_iff_right hflag).symm

end Linter

/-! ## Suggestions -/

/-- For every table of mappings, every score and every query, the suggestions are the best three of
the commands that are close to the name, and of the flags that are close to the flag. For an empty
name and for a flag of dashes there are none, and a flag of dashes is never among them. -/
theorem suggestions_are_best (l : Linter) (name command flag : Text) :
    BestFew 3 (rankKey l.score name) (fun t => name ≠ [] ∧ l.CommandCandidate name t)
        (l.commandSuggestions name) ∧
      BestFew 3 (rankKey l.score flag)
        (fun t => bareFlag flag ≠ [] ∧ bareFlag t ≠ [] ∧ l.FlagCandidate command flag t)
        (l.flagSuggestions command flag) :=
  ⟨l.bestFew_commandSuggestions name, l.bestFew_flagSuggestions command flag⟩

/-- The flags of a mapping that a user adds may be suggested. -/
theorem Linter.suggestibleFlags_withOverlay (score : Text → Text → Int) {m : Mapping}
    (hadmissible : m.isAdmissible = true) (hfresh : m.name ∉ builtinMappings.map (·.name)) :
    Linter.suggestibleFlags ⟨RuleTable.withOverlay [m], score⟩ m.name = m.flags.keys := by
  have hspecial : Special.ofName? m.name = none := (Mapping.isAdmissible_iff.mp hadmissible).2
  have hnames : (RuleTable.withOverlay []).names = builtinMappings.map (·.name) := by
    rw [RuleTable.names, RuleTable.withOverlay, List.foldl_nil, RuleTable.indexed_builtin.2]
  have hpush := RuleTable.withOverlay_concat [] m
  rw [if_pos ⟨hadmissible, hnames ▸ hfresh⟩, List.nil_append] at hpush
  have hget : (RuleTable.withOverlay [m]).get? m.name = some m := by
    rw [(RuleTable.indexed_withOverlay [m]).get?_eq_some_iff, hpush]
    exact ⟨List.mem_append_right _ (List.mem_singleton_self m), rfl⟩
  simp only [Linter.suggestibleFlags, hspecial, hget]

/-- A command of a user that takes two dashes as a flag. -/
def dashMapping : Mapping :=
  { name := "tac".toList, verb := "Get-Reversed".toList, flags := [("--".toList, [])] }

/-- The empty name is part of every command and a dash, dashes aside, of every flag, but nothing is
suggested for them. Two dashes are part of every flag, but are not suggested. -/
theorem nothing_close_to_nothing :
    let l : Linter := ⟨RuleTable.withOverlay [dashMapping], similarity⟩
    ¬BestFew 3 (rankKey l.score []) (l.CommandCandidate []) (l.commandSuggestions []) ∧
      ¬BestFew 3 (rankKey l.score ['-']) (l.FlagCandidate "grep".toList ['-'])
        (l.flagSuggestions "grep".toList ['-']) ∧
      ¬BestFew 3 (rankKey l.score ['-', 'x']) (l.FlagCandidate "tac".toList ['-', 'x'])
        (l.flagSuggestions "tac".toList ['-', 'x']) := by
  intro l
  have htac : l.suggestibleFlags "tac".toList = ["--".toList] :=
    Linter.suggestibleFlags_withOverlay similarity (m := dashMapping) (by decide +kernel) (by decide)
  refine ⟨fun h => ?_, fun h => ?_, fun h => ?_⟩
  · have hawk : l.CommandCandidate [] "awk".toList :=
      ⟨.inr (by decide), by decide, .inl List.nil_infix⟩
    have hmem : "awk".toList ∈ ([] : List Text) := h.complete (Nat.zero_lt_succ 2) _ hawk
    cases hmem
  · have hextended : l.FlagCandidate "grep".toList ['-'] "-E".toList :=
      ⟨by decide, by decide, .inl List.nil_infix⟩
    have hmem : "-E".toList ∈ ([] : List Text) := h.complete (Nat.zero_lt_succ 2) _ hextended
    cases hmem
  · have hdashes : l.FlagCandidate "tac".toList ['-', 'x'] "--".toList :=
      ⟨by rw [htac]; exact List.mem_singleton_self _, by decide, .inr List.nil_infix⟩
    have hnone : l.flagSuggestions "tac".toList ['-', 'x'] = [] := by
      have hclose : ["--".toList].filter (isCloseFlag ['-', 'x']) = [] := by decide
      rw [Linter.flagSuggestions, htac, hclose]
      simp [rank, dropRepeats]
    rw [hnone] at h
    cases h.complete (Nat.zero_lt_succ 2) _ hdashes

end CrossShell
