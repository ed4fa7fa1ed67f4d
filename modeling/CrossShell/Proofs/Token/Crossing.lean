import CrossShell.Proofs.Token.Wholeness

/-!
# Braces and parentheses that do not cross

The pass for parentheses comes first and hides the braces in what it glues together. If these are
balanced, an expansion in braces ends where it did.

* `Expansion.Nests`: the braces of the command substitutions that an expansion meets are balanced.
* `exists_coalesce_eq_append`: the pass for parentheses keeps what is balanced balanced.
* `Expansion.Nests.liesIn_or_exists_sameEnds`: an expansion in braces is hidden, or it is still
  there.
* `expansions_whole_iff`: the expansions of a line that stay whole.
-/

namespace CrossShell

variable {line : Text} {ts : List Token}

/-- The braces of every command substitution that the expansion meets are balanced. -/
def Expansion.Nests (x : Expansion .brace ts) : Prop :=
  ∀ v : Expansion .paren ts, (∃ t ∈ v.group, t ∈ x.dollar :: x.group) →
    Bracket.brace.Balanced v.group

/-! ## Counting braces over units -/

namespace Bracket

variable {k : Bracket}

theorem isBare_of_not_isOperator {t : Token} (h : t.isOperator = false) :
    t.isBare k.opener = false ∧ t.isBare k.closer = false := by
  constructor
  · refine Bool.eq_false_iff.mpr fun hopen => ?_
    rw [isOperator_of_opener hopen] at h
    cases h
  · refine Bool.eq_false_iff.mpr fun hclose => ?_
    rw [isOperator_of_closer hclose] at h
    cases h

theorem opens_eq_zero {ts : List Token} (h : ∀ t ∈ ts, t.isOperator = false) : k.opens ts = 0 :=
  List.countP_eq_zero.mpr fun t ht =>
    Bool.eq_false_iff.mp (isBare_of_not_isOperator (k := k) (h t ht)).1

theorem closes_eq_zero {ts : List Token} (h : ∀ t ∈ ts, t.isOperator = false) : k.closes ts = 0 :=
  List.countP_eq_zero.mpr fun t ht =>
    Bool.eq_false_iff.mp (isBare_of_not_isOperator (k := k) (h t ht)).2

/-- Tokens that close as many groups as they open leave the rest as it was. -/
theorem Within.of_append {e : Nat} {ts us : List Token} (h : k.Within e (ts ++ us))
    (hts : k.opens ts = k.closes ts) : k.Within e us := by
  intro vs hvs
  have := h (ts ++ vs) ((List.prefix_append_right_inj ts).mpr hvs)
  rw [closes_append, opens_append] at this
  omega

theorem closes_append_eq_iff {e : Nat} {ts : List Token} (hts : k.opens ts = k.closes ts)
    (us : List Token) :
    k.closes (ts ++ us) = e + k.opens (ts ++ us) ↔ k.closes us = e + k.opens us := by
  rw [closes_append, opens_append]
  omega

/-- What stands behind a token of tokens in which a group stays open. -/
theorem Within.exists_tail {e : Nat} {t : Token} {ts : List Token} (h : k.Within e (t :: ts)) :
    ∃ e', k.Within e' ts ∧ ∀ us, (k.Within e' us → k.Within e (t :: us)) ∧
      (k.closes (t :: us) = e + k.opens (t :: us) ↔ k.closes us = e' + k.opens us) := by
  rw [within_cons_iff] at h
  by_cases hopen : t.isBare k.opener = true
  · rw [if_pos hopen] at h
    refine ⟨e + 1, h, fun us => ⟨fun hus => by rwa [within_cons_iff, if_pos hopen], ?_⟩⟩
    rw [closes_cons, opens_cons, isBare_closer_of_opener hopen, if_pos hopen]
    simp only [Bool.false_eq_true, ↓reduceIte]
    omega
  rw [if_neg hopen] at h
  by_cases hclose : t.isBare k.closer = true
  · rw [if_pos hclose] at h
    refine ⟨e - 1, h.2, fun us => ⟨fun hus => ?_, ?_⟩⟩
    · rw [within_cons_iff, if_neg hopen, if_pos hclose]
      exact ⟨h.1, hus⟩
    · rw [closes_cons, opens_cons, if_neg hopen, if_pos hclose]
      omega
  · rw [if_neg hclose] at h
    refine ⟨e, h, fun us => ⟨fun hus => ?_, ?_⟩⟩
    · rwa [within_cons_iff, if_neg hopen, if_neg hclose]
    · rw [closes_cons, opens_cons, if_neg hopen, if_neg hclose]
      omega

/-- What stands behind a token that is no bracket. -/
theorem within_cons_of_not_isBare {e : Nat} {t : Token}
    (ht : t.isBare k.opener = false ∧ t.isBare k.closer = false) (us : List Token) :
    (k.Within e (t :: us) ↔ k.Within e us) ∧
      (k.closes (t :: us) = e + k.opens (t :: us) ↔ k.closes us = e + k.opens us) := by
  rw [within_cons_iff, closes_cons, opens_cons, ht.1, ht.2]
  exact ⟨Iff.rfl, Iff.rfl⟩

/-- Nothing stands behind the tokens, or a token that closes a group does and they close `e` groups
more than they open. -/
def Stops (k : Bracket) (e : Nat) (us rest : List Token) : Prop :=
  rest = [] ∨ ∃ c more, rest = c :: more ∧ c.isBare k.closer = true ∧
    k.closes us = e + k.opens us

theorem Stops.imp {e e' : Nat} {us us' rest : List Token} (h : k.Stops e us rest)
    (himp : k.closes us = e + k.opens us → k.closes us' = e' + k.opens us') :
    k.Stops e' us' rest :=
  Or.imp_right (fun ⟨c, more, heq, hc, hcount⟩ => ⟨c, more, heq, hc, himp hcount⟩) h

end Bracket

/-- A unit of several tokens is no bracket. -/
theorem isBare_glue {k : Bracket} {t : Token} {more : List Token} (hne : more ≠ [])
    (horder : InOrder (t :: more)) (hslices : ∀ u ∈ t :: more, u.At line) :
    (glue line t more).isBare k.opener = false ∧ (glue line t more).isBare k.closer = false := by
  have hnonempty : ∀ u ∈ t :: more, u.value.length ≠ 0 := by
    intro u hu hnil
    obtain ⟨a, b, -, hstart, hstop⟩ := hslices u hu
    have := horder.1 u hu
    rw [List.length_eq_zero_iff.mp hnil, Text.size_nil] at hstop
    omega
  obtain ⟨u, hu⟩ : ∃ u, more.getLast? = some u := ⟨_, List.getLast?_eq_some_getLast hne⟩
  obtain ⟨m, hm⟩ := (at_glue horder hslices).2 u hu
  have hlong : 1 < (glue line t more).value.length := by
    have hfirst := hnonempty t List.mem_cons_self
    have hlast := hnonempty u (List.mem_cons_of_mem _ (List.mem_of_getLast? hu))
    rw [hm, List.length_append, List.length_append]
    omega
  have hne : ∀ v : Text, v.length = 1 → (glue line t more).isBare v = false := by
    intro v hv
    rw [Token.isBare, Bool.and_eq_false_iff]
    refine .inr (beq_eq_false_iff_ne.mpr fun heq => ?_)
    rw [heq] at hlong
    omega
  exact ⟨hne _ (by cases k <;> rfl), hne _ (by cases k <;> rfl)⟩

theorem isOperator_of_mem_take_adjacentLength {last t : Token} {ts : List Token}
    (h : t ∈ ts.take (adjacentLength last ts)) : t.isOperator = false := by
  obtain ⟨i, hi, hget⟩ := List.mem_iff_getElem.mp h
  have hlt : i < adjacentLength last ts := by
    rw [List.length_take] at hi
    omega
  rw [List.getElem_take] at hget
  exact isOperator_of_lt_adjacentLength hlt (List.getElem?_eq_some_iff.mpr ⟨_, hget⟩)

section

variable {met us rest : List Token} {e : Nat}
  (hnests : ∀ v : Expansion .paren ts, (∃ t ∈ v.group, t ∈ met) → Bracket.brace.Balanced v.group)

include hnests

/-- A command substitution ends before a brace that closes more than was opened since its `$`: up to
there its braces would not be balanced. -/
theorem Expansion.exists_eq_group_append (v : Expansion .paren ts) (hus : ∀ u ∈ us, u ∈ met)
    (hstops : Bracket.brace.Stops e us rest) (hsplit : us ++ rest = v.group ++ v.behind) :
    ∃ us', us = v.group ++ us' ∧ v.behind = us' ++ rest := by
  rcases List.append_eq_append_iff.mp hsplit with ⟨more, hmore, hrest⟩ | ⟨us', hus', hbehind⟩
  · cases more with
    | nil => exact ⟨[], by rw [hmore, List.append_nil, List.append_nil], by rw [hrest]; rfl⟩
    | cons c more =>
      rcases hstops with rfl | ⟨c', more', rfl, hc, hcount⟩
      · cases hrest
      rw [List.cons_append, List.cons.injEq] at hrest
      obtain ⟨rfl, -⟩ := hrest
      have hmet : ∃ s ∈ v.group, s ∈ met := by
        cases us with
        | nil =>
          obtain ⟨⟨o, inner, hgroup, ho⟩, -⟩ := v.isGroup.ends
          rw [hgroup, List.nil_append, List.cons.injEq] at hmore
          rw [hmore.1, Bracket.isBare_opener_of_closer hc] at ho
          cases ho
        | cons u us => exact ⟨u, hmore ▸ List.mem_cons_self, hus u List.mem_cons_self⟩
      have hwithin := (hnests v hmet).1 (us ++ [c']) ⟨more, by rw [hmore]; simp⟩
      rw [Bracket.closes_append, Bracket.opens_append, Bracket.closes_cons, Bracket.opens_cons,
        if_pos hc, Bracket.isBare_opener_of_closer hc] at hwithin
      simp only [Bracket.closes_nil, Bracket.opens_nil, Bool.false_eq_true, ↓reduceIte] at hwithin
      omega
  · exact ⟨us', hus', hbehind⟩

omit hnests in
/-- What a command substitution takes along are no operators, so no brace is among them. -/
theorem Expansion.adjacentLength_le_of_stops (v : Expansion .paren ts)
    (hstops : Bracket.brace.Stops e us rest) {us' : List Token} (hbehind : v.behind = us' ++ rest) :
    adjacentLength v.last v.behind ≤ us'.length := by
  rcases hstops with rfl | ⟨c, more, rfl, hc, -⟩
  · rw [hbehind, List.append_nil]
    exact adjacentLength_le ..
  · by_contra hover
    have hat : v.behind[us'.length]? = some c := by rw [hbehind]; simp
    have hlt : us'.length < adjacentLength v.last v.behind := by omega
    have hword := isOperator_of_lt_adjacentLength hlt hat
    rw [Bracket.isOperator_of_closer hc] at hword
    cases hword

/-- Of tokens with such a brace behind them, or nothing, a command substitution takes only some, and
it takes its braces in pairs. -/
theorem extent_paren_le {t : Token} {i : Nat} (hus : ∀ u ∈ us, u ∈ met)
    (hstops : Bracket.brace.Stops e us rest) (hdrop : ts.drop i = t :: (us ++ rest))
    (hextent : Bracket.paren.pass.extent t (us ++ rest) ≠ 0) :
    let n := Bracket.paren.pass.extent t (us ++ rest)
    n ≤ us.length ∧
      Bracket.brace.opens (t :: us.take n) = Bracket.brace.closes (t :: us.take n) := by
  obtain ⟨v, rfl⟩ := exists_expansion hdrop hextent
  have hsame : t :: (us ++ rest) = v.dollar :: (v.group ++ v.behind) := by rw [← hdrop, v.drop_eq]
  rw [List.cons.injEq] at hsame
  obtain ⟨rfl, hsplit⟩ := hsame
  obtain ⟨us', hus', hbehind⟩ := v.exists_eq_group_append hnests hus hstops hsplit
  have hadjacent := v.adjacentLength_le_of_stops hstops hbehind
  have hwords : ∀ s ∈ us'.take (adjacentLength v.last v.behind), s.isOperator = false := by
    intro s hs
    have htake : (us' ++ rest).take (adjacentLength v.last v.behind) =
        us'.take (adjacentLength v.last v.behind) := List.take_append_of_le_length hadjacent
    rw [← htake, ← hbehind] at hs
    exact isOperator_of_mem_take_adjacentLength hs
  have hbalanced : Bracket.brace.closes v.group = Bracket.brace.opens v.group := by
    obtain ⟨⟨o, inner, hgroup, -⟩, -⟩ := v.isGroup.ends
    have ho : o ∈ v.group := hgroup ▸ List.mem_cons_self
    exact (hnests v ⟨o, ho, hus o (hus' ▸ List.mem_append_left _ ho)⟩).2
  intro n
  have hn : n = v.group.length + adjacentLength v.last v.behind := by
    show Bracket.paren.pass.extent v.dollar (us ++ rest) = _
    rw [hsplit]
    exact v.extent_eq
  refine ⟨by rw [hn, hus', List.length_append]; omega, ?_⟩
  have hdollar := Bracket.isBare_of_not_isOperator (k := .brace)
    (Token.isOperator_of_getLast v.ends_dollar)
  rw [hn, hus', List.take_length_add_append, Bracket.opens_cons, Bracket.closes_cons, hdollar.1,
    hdollar.2, Bracket.opens_append, Bracket.closes_append, Bracket.opens_eq_zero hwords,
    Bracket.closes_eq_zero hwords, hbalanced]

/-- The pass for parentheses goes over tokens in which braces stay open, up to one that closes one
brace more, and what it makes of them opens and closes as much. -/
theorem exists_coalesce_eq_append {i : Nat} (horder : InOrder ts) (hslices : ∀ t ∈ ts, t.At line)
    (hdrop : ts.drop i = us ++ rest) (hus : ∀ u ∈ us, u ∈ met)
    (hwithin : Bracket.brace.Within e us) (hstops : Bracket.brace.Stops e us rest) :
    ∃ us', coalesce line Bracket.paren.pass.extent 0 (us ++ rest) =
        us' ++ coalesce line Bracket.paren.pass.extent 0 rest ∧ Bracket.brace.Within e us' ∧
      (Bracket.brace.closes us = e + Bracket.brace.opens us →
        Bracket.brace.closes us' = e + Bracket.brace.opens us') := by
  induction hn : us.length using Nat.strongRecOn generalizing us i e with
  | ind n ih =>
    cases us with
    | nil => exact ⟨[], rfl, Bracket.within_nil e, fun h => h⟩
    | cons t us =>
      rw [List.length_cons] at hn
      have hmem : ∀ u ∈ us, u ∈ met := fun u hu => hus u (List.mem_cons_of_mem _ hu)
      have hbehind : ts.drop (i + 1) = us ++ rest := by
        rw [← List.drop_drop, hdrop, List.cons_append, List.drop_one, List.tail_cons]
      by_cases hextent : Bracket.paren.pass.extent t (us ++ rest) = 0
      · -- A token of its own counts as before.
        obtain ⟨e', htail, hcons⟩ := hwithin.exists_tail
        obtain ⟨us', hpass, hwithin', hcount'⟩ := ih us.length (by omega) hbehind hmem htail
          (hstops.imp (hcons us).2.mp) rfl
        refine ⟨t :: us', ?_, (hcons us').1 hwithin', fun h => ?_⟩
        · rw [List.cons_append, coalesce_cons_of_extent hextent, hpass, List.cons_append]
        · exact (hcons us').2.mpr (hcount' ((hcons us).2.mp h))
      · -- A command substitution takes its braces in pairs.
        have hword : t.isOperator = false := Bool.eq_false_iff.mpr fun hop =>
          hextent (Bracket.extent_of_isOperator hop _)
        have htail := Bracket.within_cons_of_not_isBare (e := e)
          (Bracket.isBare_of_not_isOperator (k := .brace) hword) us
        obtain ⟨hle, hpairs⟩ :=
          extent_paren_le hnests hmem (hstops.imp htail.2.mp) hdrop hextent
        have hpass := coalesce_cons_append line hle
        generalize Bracket.paren.pass.extent t (us ++ rest) = m at hextent hle hpairs hpass
        have hsplit : t :: us = (t :: us.take m) ++ us.drop m := by
          rw [List.cons_append, List.take_append_drop]
        have hcounts := Bracket.closes_append_eq_iff (e := e) hpairs (us.drop m)
        rw [← hsplit] at hcounts
        rw [hsplit] at hwithin
        obtain ⟨us', hpass', hwithin', hcount'⟩ := ih (us.drop m).length
          (by rw [List.length_drop]; omega)
          (i := i + 1 + m) (by rw [← List.drop_drop, hbehind, List.drop_append_of_le_length hle])
          (fun u hu => hmem u (List.mem_of_mem_drop hu)) (hwithin.of_append hpairs)
          (hstops.imp hcounts.mp) rfl
        have hunit := unit_sublist (hdrop.trans (List.cons_append ..)) m
        rw [List.take_append_of_le_length hle] at hunit
        have hne : us.take m ≠ [] := by
          refine List.ne_nil_of_length_pos ?_
          rw [List.length_take]
          omega
        have hglue := Bracket.within_cons_of_not_isBare (e := e)
          (isBare_glue (k := .brace) hne (horder.sublist hunit)
            fun u hu => hslices u (hunit.subset hu)) us'
        refine ⟨glue line t (us.take m) :: us', ?_, hglue.1.mpr hwithin', fun h => ?_⟩
        · rw [hpass, hpass', List.cons_append]
        · exact hglue.2.mpr (hcount' (hcounts.mp h))

end

theorem getLast?_coalesce {extent : Token → List Token → Nat} (ts : List Token) :
    (coalesce line extent 0 ts).getLast?.map Token.stop = ts.getLast?.map Token.stop := by
  induction hn : ts.length using Nat.strongRecOn generalizing ts with
  | ind n ih =>
    cases ts with
    | nil => rfl
    | cons t ts =>
      rw [List.length_cons] at hn
      have hrest := ih (ts.drop (extent t ts)).length (by rw [List.length_drop]; omega) _ rfl
      rw [coalesce_zero_cons]
      cases hdrop : ts.drop (extent t ts) with
      | nil =>
        have htake : ts.take (extent t ts) = ts := by
          have h := List.take_append_drop (extent t ts) ts
          rwa [hdrop, List.append_nil] at h
        show some (glue line t _).stop = _
        rw [glue_stop, htake, List.getLast?_cons]
        rfl
      | cons u us =>
        rw [hdrop] at hrest
        have hts : (t :: ts).getLast? = (u :: us).getLast? := by
          rw [← List.take_append_drop (extent t ts) ts, hdrop, ← List.cons_append,
            List.getLast?_append_of_ne_nil _ (List.cons_ne_nil u us)]
        rw [hts, ← hrest, coalesce_zero_cons, List.getLast?_cons_cons]

/-! ## Expansions in braces before and behind the pass -/

/-- The two expansions have their `$` and their last token at the same place of the line. -/
def Expansion.SameEnds {k : Bracket} {us : List Token} (y : Expansion k us) (x : Expansion k ts) :
    Prop :=
  y.dollar.stop = x.dollar.stop ∧ y.stop = x.stop

/-- The pass makes a group of the group of an expansion, and it ends at the same place. -/
theorem Expansion.Nests.exists_group {x : Expansion .brace ts} (hnests : x.Nests)
    (horder : InOrder ts) (hslices : ∀ t ∈ ts, t.At line) {o : Token} {rest : List Token}
    (hdrop : ts.drop x.place = x.dollar :: o :: rest) :
    ∃ group behind, o :: Fusion.commandSubstitution.apply line rest = group ++ behind ∧
      Bracket.brace.Group group behind ∧
      group.getLast?.map Token.stop = x.group.getLast?.map Token.stop := by
  have hsplit : x.group ++ x.behind = o :: rest := (List.cons.inj (x.drop_eq.symm.trans hdrop)).2
  have hbehind : ts.drop (x.place + 2) = rest := by
    rw [← List.drop_drop, hdrop]
    rfl
  obtain ⟨o', inner, ho, ⟨c, hgroup, hinner, hc⟩ | ⟨hgroup, hnil, hinner⟩⟩ :=
    x.isGroup.closed_or_unclosed
  · rw [hgroup, List.cons_append, List.cons.injEq, List.append_assoc,
      List.singleton_append] at hsplit
    obtain ⟨rfl, rfl⟩ := hsplit
    have hcount : Bracket.brace.closes inner = 0 + Bracket.brace.opens inner := by
      rw [hinner.2, Nat.zero_add]
    obtain ⟨inner', hpass, hwithin, hcount'⟩ := exists_coalesce_eq_append hnests horder hslices
      hbehind (fun u hu => by rw [hgroup]; simp [hu]) hinner.1 (.inr ⟨c, _, rfl, hc, hcount⟩)
    rw [coalesce_cons_of_extent
      (Bracket.extent_of_isOperator (Bracket.isOperator_of_closer hc) x.behind)] at hpass
    refine ⟨o' :: (inner' ++ [c]), Fusion.commandSubstitution.apply line x.behind, ?_,
      .closed ho ⟨hwithin, by have := hcount' hcount; omega⟩ hc _, ?_⟩
    · rw [List.cons_append, List.append_assoc]
      exact congrArg (o' :: ·) hpass
    · rw [hgroup, ← List.cons_append, ← List.cons_append, List.getLast?_append,
        List.getLast?_append]
      rfl
  · rw [hgroup, hnil, List.append_nil, List.cons.injEq] at hsplit
    obtain ⟨rfl, rfl⟩ := hsplit
    rw [← List.append_nil inner] at hbehind
    obtain ⟨inner', hpass, hwithin, -⟩ := exists_coalesce_eq_append hnests horder hslices
      hbehind (fun u hu => by rw [hgroup]; simp [hu]) hinner (.inl rfl)
    rw [List.append_nil] at hpass
    refine ⟨o' :: inner', [], ?_, .unclosed ho hwithin, ?_⟩
    · exact congrArg (o' :: ·) hpass
    · have hlast := @getLast?_coalesce line Bracket.paren.pass.extent inner
      rw [hpass, coalesce, List.append_nil] at hlast
      rw [hgroup, List.getLast?_cons, List.getLast?_cons]
      cases hinner' : inner'.getLast? <;> cases hlast' : inner.getLast? <;> simp_all

/-- An expansion whose `$` is at the end of a token that the pass makes is an expansion of these
tokens. -/
theorem Expansion.Nests.exists_sameEnds {x : Expansion .brace ts} (hnests : x.Nests)
    (horder : InOrder ts) (hslices : ∀ t ∈ ts, t.At line) {d o : Token} {rest front : List Token}
    (hdrop : ts.drop x.place = x.dollar :: o :: rest)
    (hpass : Fusion.commandSubstitution.apply line ts =
      front ++ d :: o :: Fusion.commandSubstitution.apply line rest)
    (hquote : d.quote = none) (hends : d.value.getLast? = some '$')
    (hstop : d.stop = x.dollar.stop) :
    ∃ y : Expansion .brace (Fusion.commandSubstitution.apply line ts), y.SameEnds x := by
  obtain ⟨group, behind, heq, hgroup, hlast⟩ := hnests.exists_group horder hslices hdrop
  have hsplit : x.group ++ x.behind = o :: rest := (List.cons.inj (x.drop_eq.symm.trans hdrop)).2
  have htouches : ∀ o' ∈ group.head?, d.touches o' = true := by
    intro o' ho'
    obtain ⟨⟨g, inner, rfl, -⟩, -⟩ := hgroup.ends
    obtain ⟨⟨g', inner', hx, -⟩, -⟩ := x.isGroup.ends
    rw [hx, List.cons_append, List.cons.injEq] at hsplit
    rw [List.cons_append, List.cons.injEq] at heq
    have htouch := x.touches g' (by rw [hx]; rfl)
    rw [List.head?_cons, Option.mem_some_iff, ← heq.1, ← hsplit.1] at ho'
    rwa [Token.touches, hstop, ← ho']
  refine ⟨⟨front.length, d, group, behind, ?_, hquote, hends, htouches, hgroup⟩, hstop, ?_⟩
  · rw [hpass, List.drop_left, heq]
  · obtain ⟨⟨g', inner', hx, -⟩, -⟩ := x.isGroup.ends
    obtain ⟨l, hl⟩ : ∃ l, x.group.getLast? = some l :=
      ⟨_, List.getLast?_eq_some_getLast (by rw [hx]; exact List.cons_ne_nil _ _)⟩
    rw [hl, Option.map_some, Option.map_eq_some_iff] at hlast
    obtain ⟨l', hl', hsame⟩ := hlast
    show (group.getLast?.getD d).stop = (x.group.getLast?.getD x.dollar).stop
    rw [hl, hl']
    exact hsame

/-- An expansion in the group of a command substitution ends there. -/
theorem Expansion.Nests.lastPlace_le {x : Expansion .brace ts} (hnests : x.Nests)
    {v : Expansion .paren ts} (hlt : v.place < x.place) (hle : x.place ≤ v.lastPlace) :
    x.lastPlace ≤ v.lastPlace := by
  have hbalanced := hnests v ⟨x.dollar, v.mem_group hlt hle x.getElem?_place, List.mem_cons_self⟩
  have hne : x.place ≠ v.lastPlace := by
    intro heq
    have hbound := x.lastPlace_lt
    have hplace := x.place_lt_lastPlace
    exact x.place_ne_of_isOperator v.getElem?_lastPlace (v.isOperator_last (by omega)) heq
  have hlast : v.lastPlace = v.place + v.group.length := rfl
  have := x.lastPlace_lt_of_balanced v.drop_succ_place hbalanced (by omega) (by omega)
  omega

/-- The pass for parentheses hides an expansion in braces, or it is still there. -/
theorem Expansion.Nests.liesIn_or_exists_sameEnds {x : Expansion .brace ts} (hnests : x.Nests)
    (horder : InOrder ts) (hslices : ∀ t ∈ ts, t.At line) :
    (∃ t ∈ Fusion.commandSubstitution.apply line ts, x.LiesIn t) ∨
      ∃ y : Expansion .brace (Fusion.commandSubstitution.apply line ts), y.SameEnds x := by
  obtain ⟨o, inner, ho, -, hdrop⟩ := x.exists_drop_eq
  have hop := Bracket.isOperator_of_opener ho
  obtain ⟨i, hi, hle, hge⟩ := @exists_unit Bracket.paren.pass.extent ts x.place
  rcases Nat.eq_or_lt_of_le hle with rfl | hlt
  · -- The `$` touches no parenthesis, and is a token of its own.
    have hextent : Bracket.paren.pass.extent x.dollar (o :: (inner ++ x.behind)) = 0 :=
      Bracket.extent_of_not_opener (Bracket.isBare_opener_of_ne ho (by decide)) _ _
    obtain ⟨front, hfront⟩ := hi.exists_coalesce_eq line
    rw [hdrop, coalesce_cons_of_extent hextent,
      coalesce_cons_of_extent (Bracket.extent_of_isOperator hop _)] at hfront
    exact .inr (hnests.exists_sameEnds horder hslices hdrop hfront x.unquoted x.ends_dollar rfl)
  have hreach : reachAt Bracket.paren.pass.extent ts i ≠ 0 := by omega
  obtain ⟨v, rfl⟩ := exists_expansion_of_reachAt hreach
  rw [v.reachAt_place] at hge
  by_cases hin : x.place ≤ v.lastPlace
  · obtain ⟨u, hu, -, hlies⟩ :=
      exists_liesIn_of_inside hi line horder x hlt (hnests.lastPlace_le hlt hin)
    exact .inl ⟨u, hu, hlies⟩
  · have hlast : v.lastPlace = v.place + v.group.length := rfl
    obtain ⟨u, front, hpass, -, hstop, hquote, hvalue⟩ := exists_tail_unit hi horder hslices
      (by omega) (by omega) hdrop hop x.dollar_value_ne_nil
    exact .inr (hnests.exists_sameEnds horder hslices hdrop hpass hquote
      (hvalue.trans x.ends_dollar) hstop)

/-! ## The expansions of a line -/

/-- The expansion is the first of its row, or every second one from there on, or it is enclosed. -/
def Expansion.Kept {k : Bracket} (x : Expansion k ts) (fs : List Token) : Prop :=
  ∃ n, Expansion.InRow n x ∧ (n % 2 = 0 ∨ x.Enclosed fs)

theorem Expansion.whole_iff_kept {k : Bracket} {fs : List Token} (x : Expansion k ts)
    (horder : InOrder ts) (hslices : ∀ t ∈ ts, t.At line)
    (hfs : Coarsens k (k.pass.apply line ts) fs) : x.Whole fs ↔ x.Kept fs := by
  constructor
  · intro hwhole
    obtain ⟨n, hn⟩ := x.exists_inRow
    exact ⟨n, hn, (hn.whole_iff horder hslices hfs).mp hwhole⟩
  · rintro ⟨n, hn, hkept⟩
    exact (hn.whole_iff horder hslices hfs).mpr hkept

/-- Expansions with the same ends are whole together, if one stands among the tokens that the pass
for parentheses makes of those of the other. -/
theorem Expansion.SameEnds.whole_iff {x : Expansion .brace ts}
    {y : Expansion .brace (Fusion.commandSubstitution.apply line ts)} (h : y.SameEnds x)
    (horder : InOrder ts) : y.Whole (fuse line ts) ↔ x.Whole (fuse line ts) := by
  obtain ⟨hdollar, hstop⟩ := h
  have horder' : InOrder (Fusion.commandSubstitution.apply line ts) := inOrder_coalesce horder
  have hx := horder.1 x.dollar x.dollar_mem
  have hy := horder'.1 y.dollar y.dollar_mem
  have hxstop := x.dollar_stop_lt horder
  have hcovered : y.dollar.start ≤ x.dollar.start := by
    obtain ⟨t, ht, hle, hge⟩ := exists_covering line horder x.dollar_mem
    obtain rfl := horder'.eq_of_overlap ht y.dollar_mem (by omega) (by omega)
    exact hle
  constructor
  · rintro ⟨t, ht, hle, hge⟩
    exact ⟨t, ht, by omega, by omega⟩
  · rintro ⟨t, ht, hle, hge⟩
    obtain ⟨s, hs, hleft, hright⟩ := (coarsens_paren horder).covers y.dollar y.dollar_mem
    obtain rfl := (coarsens_paren horder).order.eq_of_overlap hs ht (by omega) (by omega)
    exact ⟨s, hs, hleft, by omega⟩

/-- Behind the pass for parentheses, the expansion is hidden in a token, or it is kept. -/
def Expansion.KeptBehind {line : Text} (x : Expansion .brace (tokenize line)) : Prop :=
  (∃ t ∈ Fusion.commandSubstitution.apply line (tokenize line), x.LiesIn t) ∨
    ∃ y : Expansion .brace (Fusion.commandSubstitution.apply line (tokenize line)),
      y.SameEnds x ∧ y.Kept (fused line)

/-- Command substitutions stay whole exactly if they are kept. Expansions in braces stay whole if
they are kept behind the pass for parentheses, and only then if they nest with command
substitutions. -/
theorem expansions_whole_iff (line : Text) :
    (∀ x : Expansion .paren (tokenize line), x.Whole (fused line) ↔ x.Kept (fused line)) ∧
    ∀ x : Expansion .brace (tokenize line),
      (x.KeptBehind → x.Whole (fused line)) ∧ (x.Nests → x.Whole (fused line) → x.KeptBehind) := by
  have horder : InOrder (tokenize line) := inOrder_tokenizeFrom 0 line
  have hslices : ∀ t ∈ tokenize line, t.At line := fun t ht => at_of_mem_tokenize ht
  have hkept : ∀ y : Expansion .brace (Fusion.commandSubstitution.apply line (tokenize line)),
      y.Whole (fused line) ↔ y.Kept (fused line) := fun y =>
    y.whole_iff_kept (inOrder_coalesce horder) (at_of_mem_coalesce horder hslices)
      (coarsens_brace horder)
  refine ⟨fun x => x.whole_iff_kept horder hslices (coarsens_paren horder), fun x => ⟨?_, ?_⟩⟩
  · rintro (⟨u, hu, hlies⟩ | ⟨y, hy, hykept⟩)
    · obtain ⟨t, ht, hcover⟩ := (coarsens_paren horder).covers u hu
      exact ⟨t, ht, hlies.of_covers hcover⟩
    · exact (hy.whole_iff horder).mp ((hkept y).mpr hykept)
  · intro hnests hwhole
    rcases hnests.liesIn_or_exists_sameEnds horder hslices with hlies | ⟨y, hy⟩
    · exact .inl hlies
    · exact .inr ⟨y, hy, (hkept y).mp ((hy.whole_iff horder).mpr hwhole)⟩

/-- What counting finds at the place of an expansion. -/
theorem Expansion.ends_eq {k : Bracket} (x : Expansion k ts) {i : Nat} (hplace : x.place = i)
    {d l : Token} (hd : ts[i]? = some d)
    (hl : ts[i + groupLength k.opener k.closer 0 (ts.drop (i + 1))]? = some l) :
    x.dollar = d ∧ x.stop = l.stop := by
  subst hplace
  rw [← x.group_length] at hl
  have hlast : some x.last = some l := x.getElem?_lastPlace.symm.trans hl
  rw [Option.some.injEq] at hlast
  rw [x.getElem?_place, Option.some.injEq] at hd
  exact ⟨hd, congrArg Token.stop hlast⟩

/-- The second of two command substitutions that touch is cut behind its `$`. -/
theorem second_expansion_cut :
    ∃ x : Expansion .paren (tokenize "$(a)$(b)"), x.place = 4 ∧ ¬x.Whole (fused "$(a)$(b)") := by
  have hreach : reachAt Bracket.paren.pass.extent (tokenize "$(a)$(b)") 4 ≠ 0 := by decide
  have hnone : ∀ t ∈ fused "$(a)$(b)", ¬(t.start ≤ 4 ∧ 8 ≤ t.stop) := by decide
  obtain ⟨x, hx⟩ := exists_expansion_of_reachAt hreach
  obtain ⟨hdollar, hstop⟩ := x.ends_eq hx (d := ⟨"$", 4, 5, none⟩) (l := ⟨")", 7, 8, none⟩)
    (by decide) (by decide)
  refine ⟨x, hx, fun ⟨t, ht, hle, hge⟩ => ?_⟩
  rw [hdollar] at hle
  rw [hstop] at hge
  exact hnone t ht ⟨hle, hge⟩

/-- Three command substitutions in a row, and an expansion in braces that holds a fourth. -/
def rowLine : Text := "$(a)$(b)$(c)$\x7bd $(e)\x7d"

theorem expansions_whole_rowLine :
    ∃ (x : Expansion .paren (tokenize rowLine)) (z : Expansion .brace (tokenize rowLine)),
      x.place = 8 ∧ x.Kept (fused rowLine) ∧ x.Whole (fused rowLine) ∧
      z.place = 12 ∧ z.Nests ∧ z.KeptBehind ∧ z.Whole (fused rowLine) := by
  obtain ⟨hparen, hbrace⟩ := expansions_whole_iff rowLine
  have hreach : ∀ i ∈ [0, 4, 8], reachAt Bracket.paren.pass.extent (tokenize rowLine) i ≠ 0 := by
    decide
  obtain ⟨v, hv⟩ := exists_expansion_of_reachAt (hreach 0 (by decide))
  obtain ⟨w, hw⟩ := exists_expansion_of_reachAt (hreach 4 (by decide))
  obtain ⟨x, hx⟩ := exists_expansion_of_reachAt (hreach 8 (by decide))
  have hvw : v.FollowedBy w := by
    rw [Expansion.followedBy_iff_reachAt, Expansion.lastPlace, v.group_length, hv, hw]
    decide
  have hwx : w.FollowedBy x := by
    rw [Expansion.followedBy_iff_reachAt, Expansion.lastPlace, w.group_length, hw, hx]
    decide
  have hfirst : ∀ u : Expansion .paren (tokenize rowLine), ¬u.FollowedBy v := by
    intro u hu
    have := (Expansion.followedBy_iff.mp hu).1
    omega
  have hxkept : x.Kept (fused rowLine) := ⟨2, .next (.next (.first hfirst) hvw) hwx, .inl rfl⟩
  -- The expansion in braces starts with the word that ends in its `$`.
  have hreach' : reachAt Bracket.brace.pass.extent (tokenize rowLine) 12 ≠ 0 := by decide
  obtain ⟨z, hz⟩ := exists_expansion_of_reachAt hreach'
  have hreach'' : reachAt Bracket.brace.pass.extent
      (Fusion.commandSubstitution.apply rowLine (tokenize rowLine)) 4 ≠ 0 := by decide
  obtain ⟨y, hy⟩ := exists_expansion_of_reachAt hreach''
  have hzends := z.ends_eq hz (d := ⟨"$", 12, 13, none⟩) (l := ⟨"\x7d", 20, 21, none⟩)
    (by decide) (by decide)
  have hyends := y.ends_eq hy (d := ⟨"$(c)$", 8, 13, none⟩) (l := ⟨"\x7d", 20, 21, none⟩)
    (by decide) (by decide)
  have hsame : y.SameEnds z := by
    rw [Expansion.SameEnds, hzends.1, hzends.2, hyends.1, hyends.2]
    exact ⟨rfl, rfl⟩
  have hyfirst : ∀ u, ¬Expansion.FollowedBy u y := by
    intro u hu
    have hlt := (Expansion.followedBy_iff.mp hu).1
    have hplace := u.place_lt_lastPlace
    have hopeners : ∀ i < 5,
        ∀ t ∈ (Fusion.commandSubstitution.apply rowLine (tokenize rowLine))[i]?,
        t.isBare Bracket.brace.opener = false := by decide
    obtain ⟨o, ho, hat, -⟩ := u.exists_opener
    rw [hopeners _ (by omega) o hat] at ho
    cases ho
  have hnests : z.Nests := by
    intro u _
    have hplaces : ∀ i < 20, ∀ t ∈ (tokenize rowLine)[i + 1]?,
        t.isBare Bracket.paren.opener = true →
        Bracket.brace.Balanced (((tokenize rowLine).drop (i + 1)).take
          (groupLength Bracket.paren.opener Bracket.paren.closer 0
            ((tokenize rowLine).drop (i + 1)))) := by decide
    have hbound : u.place < 20 := Nat.lt_trans u.place_lt_lastPlace u.lastPlace_lt
    obtain ⟨o, ho, hat, -⟩ := u.exists_opener
    rw [u.group_eq_take, u.group_length]
    exact hplaces u.place hbound o hat ho
  have hzkept : z.KeptBehind := .inr ⟨y, hsame, 0, .first hyfirst, .inl rfl⟩
  exact ⟨x, z, hx, hxkept, (hparen x).mpr hxkept, hz, hnests, hzkept, (hbrace z).1 hzkept⟩

end CrossShell
