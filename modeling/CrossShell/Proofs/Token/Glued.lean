import CrossShell.Proofs.Token.Partition
import CrossShell.Proofs.Token.Substitutions

/-!
# What the passes glue together

A token behind a pass is one that was there, or a unit of several. A pass glues only behind tokens
of a certain kind, and so the text of what it makes starts in a certain way.

* `exists_glue_of_mem_coalesce`, `Fusion.mem_apply_cases`: what a pass makes.
* `exists_unit_of_covered`: a token that is glued to what stands before it.
* `coalesce_append_of_ends`, `filter_coalesce`: what a pass leaves as it is.
* `Fusion.unit_heredoc` and the like: where the units of a pass start.
* `Fusion.glue_heredoc` and the like: how the texts of its units start.
-/

namespace CrossShell

/-! ## One pass -/

section Pass

variable {line : Text} {extent : Token → List Token → Nat} {ts rest : List Token} {t : Token}

/-- What a pass makes are the units of some of the tokens and those behind them. -/
theorem exists_glue_of_mem_coalesce (h : t ∈ coalesce line extent 0 ts) :
    ∃ u us, u :: us <:+ ts ∧ t = glue line u (us.take (extent u us)) := by
  induction hn : ts.length using Nat.strongRecOn generalizing ts with
  | ind n ih =>
    cases ts with
    | nil => cases h
    | cons u us =>
      rw [coalesce_zero_cons] at h
      rcases List.mem_cons.mp h with rfl | h
      · exact ⟨u, us, List.suffix_rfl, rfl⟩
      · obtain ⟨v, vs, hsuffix, ht⟩ :=
          ih _ (by rw [List.length_drop, ← hn, List.length_cons]; omega) h rfl
        exact ⟨v, vs, (hsuffix.trans (List.drop_suffix _ _)).trans (List.suffix_cons u us), ht⟩

/-- If no unit of the first tokens reaches the others, a pass goes over both one after the other. -/
theorem coalesce_append_of_ends (h : ∀ t us, t :: us <:+ ts →
      extent t (us ++ rest) = extent t us ∧ extent t us ≤ us.length) :
    coalesce line extent 0 (ts ++ rest) =
      coalesce line extent 0 ts ++ coalesce line extent 0 rest := by
  induction hn : ts.length using Nat.strongRecOn generalizing ts with
  | ind n ih =>
    cases ts with
    | nil => rfl
    | cons t us =>
      obtain ⟨hsame, hle⟩ := h t us List.suffix_rfl
      have hrest := ih _ (by rw [List.length_drop, ← hn, List.length_cons]; omega)
        (fun v vs hsuffix => h v vs
          ((hsuffix.trans (List.drop_suffix (extent t us) us)).trans (List.suffix_cons t us))) rfl
      rw [coalesce_cons_append line (hsame ▸ hle), hsame, hrest, coalesce_zero_cons]
      rfl

/-- A pass keeps the tokens that count if none of them is in a unit of several. -/
theorem filter_coalesce {counts : Token → Bool} (h : ∀ t us, t :: us <:+ ts → 0 < extent t us →
      counts (glue line t (us.take (extent t us))) = false ∧
        ∀ u ∈ t :: us.take (extent t us), counts u = false) :
    (coalesce line extent 0 ts).filter counts = ts.filter counts := by
  induction hn : ts.length using Nat.strongRecOn generalizing ts with
  | ind n ih =>
    cases ts with
    | nil => rfl
    | cons t us =>
      have hrest := ih _ (by rw [List.length_drop, ← hn, List.length_cons]; omega)
        (fun v vs hsuffix => h v vs
          ((hsuffix.trans (List.drop_suffix (extent t us) us)).trans (List.suffix_cons t us))) rfl
      rw [coalesce_zero_cons]
      rcases Nat.eq_zero_or_pos (extent t us) with hzero | hpos
      · rw [hzero, List.drop_zero] at hrest
        rw [hzero, List.take_zero, List.drop_zero]
        simp only [List.filter_cons, hrest]
        rfl
      · obtain ⟨hglue, hunit⟩ := h t us List.suffix_rfl hpos
        have hnone : (t :: us.take (extent t us)).filter counts = [] :=
          List.filter_eq_nil_iff.mpr fun u hu => by simp [hunit u hu]
        have hsplit : t :: us = (t :: us.take (extent t us)) ++ us.drop (extent t us) := by simp
        rw [List.filter_cons_of_neg (by simp [hglue]), hrest]
        conv => rhs; rw [hsplit, List.filter_append, hnone, List.nil_append]

/-- A token that a pass glues to what stands before it is in the reach of a token before it. -/
theorem exists_unit_of_covered {d : Token} (horder : InOrder ts) (hmem : d ∈ ts)
    (ht : t ∈ coalesce line extent 0 ts) (hlt : t.start < d.start) (hle : d.stop ≤ t.stop) :
    ∃ u before rest, u :: (before ++ d :: rest) <:+ ts ∧
      before.length < extent u (before ++ d :: rest) := by
  obtain ⟨u, us, ⟨front, rfl⟩, rfl⟩ := exists_glue_of_mem_coalesce ht
  rw [glue_start] at hlt
  have hpos := horder.1 d hmem
  have hunit : InOrder (u :: us) := horder.sublist (List.sublist_append_right front _)
  have hus : d ∈ us := by
    rcases List.mem_append.mp hmem with hfront | hbehind
    · have := horder.append d hfront u List.mem_cons_self
      have := horder.1 u (List.mem_append_right _ List.mem_cons_self)
      omega
    · rcases List.mem_cons.mp hbehind with rfl | hus
      · exact absurd hlt (Nat.lt_irrefl _)
      · exact hus
  have htake : d ∈ us.take (extent u us) := by
    rw [← List.take_append_drop (extent u us) us] at hus hunit
    rcases List.mem_append.mp hus with htake | hdrop
    · exact htake
    · obtain ⟨s, hs, hstop⟩ := exists_stop_eq_glue line u (us.take (extent u us))
      rw [← List.cons_append] at hunit
      have := hunit.append s hs d hdrop
      omega
  obtain ⟨before, rest, hsplit⟩ := List.append_of_mem htake
  have hall : us = before ++ d :: (rest ++ us.drop (extent u us)) := by
    conv => lhs; rw [← List.take_append_drop (extent u us) us, hsplit]
    simp
  have hlength : before.length < extent u us := by
    have hle := List.length_take_le (extent u us) us
    rw [hsplit, List.length_append, List.length_cons] at hle
    omega
  exact ⟨u, before, _, ⟨front, by rw [← hall]⟩, by rw [← hall]; exact hlength⟩

/-- A token behind a pass was there, or is a unit of several. -/
theorem Fusion.mem_apply_cases {pass : Fusion} (h : t ∈ pass.apply line ts) :
    t ∈ ts ∨ ∃ u us, u :: us <:+ ts ∧ 0 < pass.extent u us ∧
      t = glue line u (us.take (pass.extent u us)) := by
  obtain ⟨u, us, hsuffix, rfl⟩ := exists_glue_of_mem_coalesce h
  rcases Nat.eq_zero_or_pos (pass.extent u us) with hzero | hpos
  · rw [hzero]
    exact .inl (hsuffix.subset List.mem_cons_self)
  · exact .inr ⟨u, us, hsuffix, hpos, rfl⟩

end Pass

/-! ## The text of a unit -/

section Unit

variable {line : Text} {t p : Token} {ts us more : List Token}

theorem Sliced.unit (h : Sliced line ts) (hsuffix : t :: us <:+ ts) (n : Nat) :
    Sliced line (t :: us.take n) :=
  h.sublist (((List.take_sublist n us).cons_cons t).trans hsuffix.sublist)

/-- A unit of several tokens starts with the text of the first, and something follows. -/
theorem Sliced.exists_glue_value (h : Sliced line (t :: more)) (hne : more ≠ []) :
    ∃ m, m ≠ [] ∧ (glue line t more).value = t.value ++ m := by
  obtain ⟨u, hu⟩ := Option.isSome_iff_exists.mp (List.getLast?_isSome.mpr hne)
  obtain ⟨m, hm⟩ := (at_glue h.1 h.2).2 u hu
  have hvalue := h.value_ne_nil (List.mem_cons_of_mem t (List.mem_of_getLast? hu))
  exact ⟨m ++ u.value, by simp [hvalue], by rw [hm, List.append_assoc]⟩

/-- If the first two of them touch, it starts with the texts of both. -/
theorem Sliced.exists_glue_value_of_touches (h : Sliced line (t :: p :: more))
    (htouch : t.touches p = true) :
    ∃ m, (glue line t (p :: more)).value = t.value ++ (p.value ++ m) := by
  have hp : p ∈ t :: p :: more := List.mem_cons_of_mem t List.mem_cons_self
  obtain ⟨w, -, hw⟩ := h.exists_glue_value (List.cons_ne_nil p more)
  obtain ⟨a, b, hline, hstart, hstop⟩ := (at_glue h.1 h.2).1
  obtain ⟨a', b', hline', hstart', hstop'⟩ := h.2 p hp
  obtain ⟨_, _, -, hstartt, hstopt⟩ := h.2 t List.mem_cons_self
  have hmeet : t.stop = p.start := beq_iff_eq.mp htouch
  have hcover := (covers_glue line h.1 hp).2
  rw [glue_start] at hstart
  rw [hw, Text.size_append] at hstop
  have hsame : (a ++ t.value) ++ (w ++ b) = a' ++ (p.value ++ b') := by
    rw [← List.append_assoc a', ← hline', hline, hw]
    simp only [List.append_assoc]
  obtain ⟨-, hbehind⟩ := append_inj_of_size hsame (by rw [Text.size_append]; omega)
  obtain ⟨m, rfl⟩ := Text.exists_eq_append_of_size_le hbehind.symm (by omega)
  exact ⟨m, hw⟩

end Unit

/-! ## The units of each pass -/

theorem Token.eq_of_isBare {t : Token} {v : Text} (h : t.isBare v = true) :
    t.quote = none ∧ t.value = v := by
  simpa only [isBare, Bool.and_eq_true, Option.isNone_iff_eq_none, beq_iff_eq] using h

theorem take_eq_cons {α : Type} {a : α} {as : List α} {n : Nat} (h : 0 < n) :
    (a :: as).take n = a :: as.take (n - 1) := by
  obtain ⟨k, rfl⟩ := Nat.exists_eq_succ_of_ne_zero (Nat.ne_of_gt h)
  rfl

namespace Fusion

variable {line : Text} {t : Token} {ts : List Token}

theorem unit_dollarGroup {opener closer : Text} (h : 0 < dollarGroupExtent opener closer t ts) :
    t.quote = none ∧ t.value.getLast? = some '$' ∧ ts ≠ [] := by
  cases ts with
  | nil => exact absurd h (Nat.lt_irrefl 0)
  | cons c ts =>
    rw [dollarGroupExtent] at h
    split at h
    next hopens =>
      simp only [Bool.and_eq_true, Option.isNone_iff_eq_none, beq_iff_eq] at hopens
      exact ⟨hopens.1.1.1, hopens.1.1.2, List.cons_ne_nil _ _⟩
    next => exact absurd h (Nat.lt_irrefl 0)

theorem unit_emptyBraces (h : 0 < emptyBraces.extent t ts) : t.isBare "\x7b" = true ∧
    ∃ c more rest, c.isBare "\x7d" = true ∧ (∀ u ∈ more, u.isOperator = false) ∧
      ts = c :: (more ++ rest) ∧ ts.take (emptyBraces.extent t ts) = c :: more := by
  cases ts with
  | nil => exact absurd h (Nat.lt_irrefl 0)
  | cons c ts =>
    rw [extent, emptyBracesExtent] at h ⊢
    split at h
    next hpair =>
      rw [if_pos hpair]
      simp only [Bool.and_eq_true] at hpair
      refine ⟨hpair.1.1, c, ts.take (adjacentLength c ts), ts.drop (adjacentLength c ts),
        hpair.1.2, fun u hu => ?_, by simp, ?_⟩
      · obtain ⟨i, hi, hget⟩ := List.mem_take_iff_getElem.mp hu
        have hlt : i < adjacentLength c ts := by omega
        exact isOperator_of_lt_adjacentLength hlt (List.getElem?_eq_some_iff.mpr ⟨by omega, hget⟩)
      · show (c :: ts).take (1 + adjacentLength c ts) = _
        rw [Nat.add_comm, List.take_succ_cons]
    next => exact absurd h (Nat.lt_irrefl 0)

theorem unit_heredoc (h : 0 < heredoc.extent t ts) : t.isBare "<<" = true ∧
    ∃ w rest, ts = w :: rest ∧ w.isOperator = false ∧ heredoc.extent t ts = 1 := by
  cases ts with
  | nil => exact absurd h (Nat.lt_irrefl 0)
  | cons w ts =>
    rw [extent, heredocExtent] at h ⊢
    split at h
    next hword =>
      rw [if_pos hword]
      simp only [Bool.and_eq_true, Bool.not_eq_true'] at hword
      exact ⟨hword.1, w, ts, rfl, hword.2, rfl⟩
    next => exact absurd h (Nat.lt_irrefl 0)

theorem unit_processSubstitution (h : 0 < processSubstitution.extent t ts) :
    ∃ p rest, ts = p :: rest ∧ startsSubstitution t p = true := by
  cases ts with
  | nil => exact absurd h (Nat.lt_irrefl 0)
  | cons p ts =>
    rw [processSubstitutionExtent_cons] at h
    split at h
    next hstarts => exact ⟨p, ts, rfl, hstarts⟩
    next => exact absurd h (Nat.lt_irrefl 0)

theorem unit_descriptorRedirection (h : 0 < descriptorRedirection.extent t ts) :
    t.isDescriptor = true ∨ t.isRedirectOperator = true ∧
      ∃ c rest, ts = c :: rest ∧ c.isBare "&" = true ∧ t.touches c = true := by
  cases ts with
  | nil => exact absurd h (Nat.lt_irrefl 0)
  | cons c ts =>
    rw [extent, descriptorRedirectionExtent] at h
    split at h
    next hdescriptor =>
      simp only [Bool.and_eq_true] at hdescriptor
      exact .inl hdescriptor.1.1
    next =>
      split at h
      next hdup =>
        simp only [Bool.and_eq_true] at hdup
        exact .inr ⟨hdup.1.1, c, ts, rfl, hdup.1.2, hdup.2⟩
      next => exact absurd h (Nat.lt_irrefl 0)

theorem glue_emptyBraces (h : Sliced line (t :: ts.take (emptyBraces.extent t ts)))
    (hpos : 0 < emptyBraces.extent t ts) :
    ∃ m, m ≠ [] ∧ (glue line t (ts.take (emptyBraces.extent t ts))).value = '{' :: m := by
  obtain ⟨hbrace, c, more, rest, -, -, -, htake⟩ := unit_emptyBraces hpos
  obtain ⟨m, hm, hvalue⟩ := h.exists_glue_value (by rw [htake]; exact List.cons_ne_nil _ _)
  exact ⟨m, hm, by rw [hvalue, (Token.eq_of_isBare hbrace).2]; rfl⟩

theorem glue_heredoc (h : Sliced line (t :: ts.take (heredoc.extent t ts)))
    (hpos : 0 < heredoc.extent t ts) :
    ∃ m, m ≠ [] ∧ (glue line t (ts.take (heredoc.extent t ts))).value = '<' :: '<' :: m := by
  obtain ⟨hbare, w, rest, rfl, -⟩ := unit_heredoc hpos
  obtain ⟨m, hm, hvalue⟩ := h.exists_glue_value
    (by rw [take_eq_cons hpos]; exact List.cons_ne_nil _ _)
  exact ⟨m, hm, by rw [hvalue, (Token.eq_of_isBare hbare).2]; rfl⟩

theorem glue_processSubstitution (h : Sliced line (t :: ts.take (processSubstitution.extent t ts)))
    (hpos : 0 < processSubstitution.extent t ts) : ∃ c m,
      (glue line t (ts.take (processSubstitution.extent t ts))).value = c :: '(' :: m := by
  obtain ⟨p, rest, rfl, hstarts⟩ := unit_processSubstitution hpos
  simp only [startsSubstitution, Bool.and_eq_true, Bool.or_eq_true] at hstarts
  obtain ⟨⟨hangle, hparen⟩, htouch⟩ := hstarts
  rw [take_eq_cons hpos] at h ⊢
  obtain ⟨m, hvalue⟩ := h.exists_glue_value_of_touches htouch
  rw [hvalue, (Token.eq_of_isBare hparen).2]
  rcases hangle with ht | ht <;> rw [(Token.eq_of_isBare ht).2] <;> exact ⟨_, m, rfl⟩

end Fusion

end CrossShell
