import CrossShell.Proofs.Token.Partition

/-!
# Where a group ends

The end of a group is searched from its opener on, by a counter that goes up at every opener and
down at every closer. The counter cannot fall below zero, and the end is where it should be:

* in front of the end more tokens open than close, so a closer finds the counter above zero;
* the counter is zero only where the two are equal in number, and the search stops there;
* if it never is, the search goes on to the last token.

A closer that nothing opens could bring the counter below zero, so all of this is about places where
a group opens. The passes search only there.

* `OpensAt`, `EndsGroup`: the place where a group opens, and the one where it ends.
* `TakenBy`: the counts of openers and closers in front of the end of a group and behind it.
  `takenBy_groupLength`: the search keeps to them.
* `OpensAt.exists_groupEnd?`: where a group opens, its end is found without a failure.
* `openGroupEnd?`: the search, made to fail where no group opens.
* `Fusion.reachBy?_eq_reach?`: a pass depends on the search only at places where a group opens.
* `group_matching_exact`: groups are found where they end, and looked for where they open.
-/

namespace CrossShell

/-! ## Places -/

/-- The number of unquoted tokens that read `text`. -/
def bareCount (text : Text) (ts : List Token) : Nat := ts.countP (·.isBare text)

/-- An unquoted opener stands at place `i`, and the closer is another text. -/
def OpensAt (opener closer : Text) (ts : List Token) (i : Nat) : Prop :=
  opener ≠ closer ∧ ts[i]?.any (·.isBare opener) = true

instance (opener closer : Text) (ts : List Token) (i : Nat) :
    Decidable (OpensAt opener closer ts i) := inferInstanceAs (Decidable (_ ∧ _))

/-- As many openers as closers stand from place `i` to place `j`. -/
def EvenTo (opener closer : Text) (ts : List Token) (i j : Nat) : Prop :=
  bareCount opener ((ts.take (j + 1)).drop i) = bareCount closer ((ts.take (j + 1)).drop i)

/-- Place `c` is the last one of the group that opens at place `i`: the first to which openers and
closers are equal in number, or the last of all if there is none. -/
structure EndsGroup (opener closer : Text) (ts : List Token) (i c : Nat) : Prop where
  le : i ≤ c
  lt : c < ts.length
  first_or_last :
    (EvenTo opener closer ts i c ∧ ∀ j, i ≤ j → j < c → ¬ EvenTo opener closer ts i j) ∨
      (∀ j, i ≤ j → j < ts.length → ¬ EvenTo opener closer ts i j) ∧ c + 1 = ts.length

variable {opener closer : Text} {ts us : List Token} {t : Token} {i : Nat}

theorem bareCount_cons (text : Text) (t : Token) (ts : List Token) :
    bareCount text (t :: ts) = bareCount text ts + if t.isBare text then 1 else 0 :=
  List.countP_cons

theorem OpensAt.exists_drop (h : OpensAt opener closer ts i) :
    ∃ o us, ts.drop i = o :: us ∧ o.isBare opener = true := by
  obtain ⟨o, ho, hopens⟩ := (Option.any_eq_true _ _).mp h.2
  obtain ⟨hi, rfl⟩ := List.getElem?_eq_some_iff.mp ho
  exact ⟨_, _, List.drop_eq_getElem_cons hi, hopens⟩

/-! ## The counter -/

/-- The first `n` of the tokens are those that `depth` open groups take: in front of each of them
more groups are open than closed, and behind them all are closed or nothing follows. -/
structure TakenBy (opener closer : Text) (depth n : Nat) (ts : List Token) : Prop where
  open_before : ∀ m < n, bareCount closer (ts.take m) < depth + bareCount opener (ts.take m)
  closed_or_all : bareCount closer (ts.take n) = depth + bareCount opener (ts.take n) ∨
    n = ts.length ∧ bareCount closer (ts.take n) < depth + bareCount opener (ts.take n)

/-- One token, by which the number of open groups becomes `depth'`. -/
theorem TakenBy.cons {depth depth' n : Nat} (h : TakenBy opener closer depth' n ts)
    (hpos : 0 < depth) (hstep : depth + (if t.isBare opener then 1 else 0) =
      depth' + if t.isBare closer then 1 else 0) :
    TakenBy opener closer depth (n + 1) (t :: ts) := by
  constructor
  · intro m hm
    cases m with
    | zero => simpa [bareCount] using hpos
    | succ m =>
      have hbefore := h.open_before m (by omega)
      rw [List.take_succ_cons, bareCount_cons, bareCount_cons]
      omega
  · rw [List.take_succ_cons, bareCount_cons, bareCount_cons, List.length_cons]
    have hend := h.closed_or_all
    omega

/-- The counter is the number of open groups as long as there are any, and it stops the search when
there are none. -/
theorem takenBy_groupLength (hne : opener ≠ closer) (depth : Nat) (ts : List Token) :
    TakenBy opener closer (depth + 1) (groupLength opener closer (depth + 1) ts) ts := by
  induction ts generalizing depth with
  | nil => exact ⟨nofun, .inr ⟨rfl, Nat.succ_pos depth⟩⟩
  | cons t ts ih =>
    rw [groupLength]
    by_cases ho : t.isBare opener = true
    · have hc : t.isBare closer = false := Token.isBare_of_ne ho hne
      rw [if_pos ho]
      exact (ih (depth + 1)).cons (Nat.succ_pos depth) (by simp [ho, hc])
    rw [if_neg ho]
    by_cases hc : t.isBare closer = true
    · rw [if_pos hc]
      cases depth with
      | zero =>
        -- The last open group is closed here, whatever follows.
        rw [if_pos (Nat.le_refl 1)]
        refine ⟨fun m hm => ?_, .inl ?_⟩
        · obtain rfl : m = 0 := by omega
          exact Nat.one_pos
        · simp [bareCount, ho, hc]
      | succ depth =>
        rw [if_neg (by omega)]
        exact (ih depth).cons (Nat.succ_pos _) (by simp [ho, hc])
    · rw [if_neg hc]
      exact (ih depth).cons (Nat.succ_pos depth) (by simp [ho, hc])

theorem evenTo_iff (h : ts.drop i = t :: us) (ho : t.isBare opener = true) (hne : opener ≠ closer)
    (n : Nat) : EvenTo opener closer ts i (i + n) ↔
      bareCount closer (us.take n) = 1 + bareCount opener (us.take n) := by
  have hspan : (ts.take (i + n + 1)).drop i = t :: us.take n := by
    rw [List.drop_take, h, show i + n + 1 - i = n + 1 by omega, List.take_succ_cons]
  have hc : t.isBare closer = false := Token.isBare_of_ne ho hne
  rw [EvenTo, hspan, bareCount_cons, bareCount_cons, ho, hc]
  simp only [↓reduceIte, Bool.false_eq_true]
  omega

/-- The group that an opener starts ends at the last of the tokens that it takes. -/
theorem TakenBy.endsGroup {n : Nat} (htaken : TakenBy opener closer 1 n us) (hn : n ≤ us.length)
    (h : ts.drop i = t :: us) (ho : t.isBare opener = true) (hne : opener ≠ closer) :
    EndsGroup opener closer ts i (i + n) := by
  have hlength := length_of_drop h
  have heven := evenTo_iff h ho hne
  have hbefore : ∀ j, i ≤ j → j < i + n → ¬ EvenTo opener closer ts i j := by
    intro j hij hj
    obtain ⟨m, rfl⟩ := Nat.exists_eq_add_of_le hij
    rw [heven]
    exact Nat.ne_of_lt (htaken.open_before m (by omega))
  refine ⟨by omega, by omega, ?_⟩
  rcases htaken.closed_or_all with hclosed | ⟨hall, hopen⟩
  · exact .inl ⟨(heven n).mpr hclosed, hbefore⟩
  · refine .inr ⟨fun j hij hj => ?_, by omega⟩
    by_cases hlast : j = i + n
    · rw [hlast, heven]
      exact Nat.ne_of_lt hopen
    · exact hbefore j hij (by omega)

/-- A search from a place where a group opens finds the end of that group, without a failure. -/
theorem OpensAt.exists_groupEnd? (h : OpensAt opener closer ts i) :
    ∃ c, groupEnd? opener closer ts i = some c ∧
      c + 1 = i + groupLength opener closer 0 (ts.drop i) ∧ EndsGroup opener closer ts i c := by
  obtain ⟨o, us, hdrop, ho⟩ := h.exists_drop
  obtain ⟨c, hend, hc⟩ := CrossShell.exists_groupEnd? closer hdrop ho
  have hplace : c = i + groupLength opener closer (0 + 1) us := by
    rw [groupLength, if_pos ho] at hc
    omega
  have hends := (takenBy_groupLength h.1 0 us).endsGroup (groupLength_le ..) hdrop ho h.1
  exact ⟨c, hend, by rw [hdrop, hc], hplace ▸ hends⟩

/-- Where none opens, a closer may find the counter at zero. -/
example : groupEnd? "(" ")" [⟨[')'], 0, 1, none⟩, ⟨['('], 1, 2, none⟩] 0 = none := by decide

/-! ## The calls -/

/-- The search of the passes, made to fail where no group opens. -/
def openGroupEnd? : GroupSearch := fun opener closer ts i =>
  if OpensAt opener closer ts i then groupEnd? opener closer ts i else none

namespace Fusion

/-- A token that an opener touches is followed by a place where a group opens. -/
theorem opensAt_of_meets (hne : opener ≠ closer)
    (h : meets t ts[i + 1]? (·.isBare opener) = true) : OpensAt opener closer ts (i + 1) := by
  obtain ⟨next, hnext, htest⟩ := (Option.any_eq_true _ _).mp h
  rw [Bool.and_eq_true] at htest
  exact ⟨hne, (Option.any_eq_true _ _).mpr ⟨next, hnext, htest.1⟩⟩

section Search

variable {search : GroupSearch}
  (hsearch : ∀ opener closer ts i, OpensAt opener closer ts i →
    search opener closer ts i = groupEnd? opener closer ts i)

include hsearch

theorem dollarGroupReachBy?_eq (hne : opener ≠ closer) :
    dollarGroupReachBy? search opener closer ts i t =
      dollarGroupReachBy? groupEnd? opener closer ts i t := by
  unfold dollarGroupReachBy?
  split
  next hcond =>
    rw [Bool.and_eq_true] at hcond
    rw [hsearch _ _ _ _ (opensAt_of_meets hne hcond.2)]
  next => rfl

theorem processSubstitutionReachBy?_eq :
    processSubstitutionReachBy? search ts i t = processSubstitutionReachBy? groupEnd? ts i t := by
  unfold processSubstitutionReachBy?
  split
  next hcond =>
    rw [Bool.and_eq_true] at hcond
    rw [hsearch _ _ _ _ (opensAt_of_meets (by decide) hcond.2)]
  next => rfl

/-- A round is the same with every search that is right where groups open: it searches nowhere
else. -/
theorem reachBy?_eq_reach? (pass : Fusion) (ts : List Token) (i : Nat) :
    pass.reachBy? search ts i = pass.reach? ts i := by
  unfold reach? reachBy?
  congr 1
  funext t
  cases pass with
  | commandSubstitution => exact dollarGroupReachBy?_eq hsearch (by decide)
  | braceExpansion => exact dollarGroupReachBy?_eq hsearch (by decide)
  | processSubstitution => exact processSubstitutionReachBy?_eq hsearch
  | emptyBraces => rfl
  | heredoc => rfl
  | descriptorRedirection => rfl

theorem runBy?_eq_run? (pass : Fusion) (line : Text) (ts : List Token) :
    pass.runBy? search line ts = pass.run? line ts := by
  rw [runBy?, funext (reachBy?_eq_reach? hsearch pass ts)]
  rfl

end Search

end Fusion

theorem openGroupEnd?_of_opensAt (opener closer : Text) (ts : List Token) (i : Nat)
    (h : OpensAt opener closer ts i) :
    openGroupEnd? opener closer ts i = groupEnd? opener closer ts i :=
  if_pos h

/-! ## The whole -/

/-- Where a group opens, the counter of the search never falls below zero. The place found is that
of a token, not in front of the opener: the first to which openers and closers are equal in number,
or the last of all if there is none. The passes search nowhere else: with a search that fails
wherever no group opens, no round fails on any tokens, and no run on the tokens of a line, whichever
passes have run on them before. -/
theorem group_matching_exact :
    (∀ (opener closer : Text) (ts : List Token) (i : Nat), OpensAt opener closer ts i →
      ∃ c, groupEnd? opener closer ts i = some c ∧
        c + 1 = i + groupLength opener closer 0 (ts.drop i) ∧
        EndsGroup opener closer ts i c) ∧
      (∀ (pass : Fusion) (ts : List Token) (i : Nat) (t : Token), ts[i]? = some t →
        pass.reachBy? openGroupEnd? ts i =
          some (Fusion.reached i (pass.extent t (ts.drop (i + 1))))) ∧
      ∀ (line : Text) (passes : List Fusion),
        passes.foldlM (fun ts pass => pass.runBy? openGroupEnd? line ts) (tokenize line) =
          some (fuseWith passes line (tokenize line)) := by
  refine ⟨fun _ _ _ _ h => h.exists_groupEnd?, fun pass ts i t ht => ?_, fun line passes => ?_⟩
  · obtain ⟨hi, rfl⟩ := List.getElem?_eq_some_iff.mp ht
    rw [Fusion.reachBy?_eq_reach? openGroupEnd?_of_opensAt]
    exact Fusion.reach?_eq pass (List.drop_eq_getElem_cons hi)
  · simp only [Fusion.runBy?_eq_run? openGroupEnd?_of_opensAt]
    exact foldlM_run?_eq_some passes (inOrder_tokenizeFrom 0 line) fun _ => at_of_mem_tokenize

/-- Closers that nothing opens, one that is quoted, a group in a group, and a group without end. -/
def openLine : Text := ") $(a (b ')') c) ) <(d (e)".toList

theorem group_matching_exact_openLine :
    OpensAt "(" ")" (tokenize openLine) 2 ∧
      groupEnd? "(" ")" (tokenize openLine) 2 = some 9 ∧
      EndsGroup "(" ")" (tokenize openLine) 2 9 ∧
      OpensAt "(" ")" (tokenize openLine) 12 ∧
      groupEnd? "(" ")" (tokenize openLine) 12 = some 16 ∧
      EndsGroup "(" ")" (tokenize openLine) 12 16 ∧
      (tokenize openLine)[1]? = some ⟨['$'], 2, 3, none⟩ ∧
      Fusion.commandSubstitution.reachBy? openGroupEnd? (tokenize openLine) 1 = some (some 9) ∧
      Fusion.all.foldlM (fun ts pass => pass.runBy? openGroupEnd? openLine ts)
        (tokenize openLine) = some (fuse openLine (tokenize openLine)) := by
  have hopen : OpensAt "(" ")" (tokenize openLine) 2 := by decide +kernel
  have hopen' : OpensAt "(" ")" (tokenize openLine) 12 := by decide +kernel
  have hend : groupEnd? "(" ")" (tokenize openLine) 2 = some 9 := by decide +kernel
  have hend' : groupEnd? "(" ")" (tokenize openLine) 12 = some 16 := by decide +kernel
  have hdollar : (tokenize openLine)[1]? = some ⟨['$'], 2, 3, none⟩ := by decide +kernel
  have hextent : Fusion.reached 1 (Fusion.commandSubstitution.extent ⟨['$'], 2, 3, none⟩
      ((tokenize openLine).drop 2)) = some 9 := by decide +kernel
  obtain ⟨hgroups, hrounds, hruns⟩ := group_matching_exact
  obtain ⟨c, hc, -, hends⟩ := hgroups _ _ _ _ hopen
  obtain ⟨c', hc', -, hends'⟩ := hgroups _ _ _ _ hopen'
  obtain rfl : c = 9 := Option.some.inj (hc.symm.trans hend)
  obtain rfl : c' = 16 := Option.some.inj (hc'.symm.trans hend')
  exact ⟨hopen, hend, hends, hopen', hend', hends', hdollar,
    (hrounds _ _ _ _ hdollar).trans (congrArg some hextent), hruns openLine Fusion.all⟩

end CrossShell
