import CrossShell.Proofs.Token.Expansions

/-!
# Which expansions stay whole

* `Expansion.LiesIn`: a token holds all of an expansion.
* `IsHead.exists_unit`: the pass for its kind glues an expansion together at which a unit starts.
* `exists_tail_unit`: the unit ends with the `$` of an expansion that follows such a one.
* `Coarsens`: what the passes behind do. `InRow.whole_iff`: the expansions that then are whole.
-/

namespace CrossShell

variable {line : Text} {k : Bracket} {ts : List Token}

/-! ## Places and bytes -/

theorem InOrder.stop_le_start_of_lt {ts : List Token} (h : InOrder ts) {i j : Nat} (hij : i < j)
    {s t : Token} (hs : ts[i]? = some s) (ht : ts[j]? = some t) : s.stop ≤ t.start := by
  obtain ⟨hi, rfl⟩ := List.getElem?_eq_some_iff.mp hs
  obtain ⟨hj, rfl⟩ := List.getElem?_eq_some_iff.mp ht
  exact List.pairwise_iff_getElem.mp h.2 i j hi hj hij

theorem InOrder.start_lt_start_of_lt {ts : List Token} (h : InOrder ts) {i j : Nat} (hij : i < j)
    {s t : Token} (hs : ts[i]? = some s) (ht : ts[j]? = some t) : s.start < t.start := by
  have := h.stop_le_start_of_lt hij hs ht
  have := h.1 s (List.mem_of_getElem? hs)
  omega

namespace Expansion

/-- All of the expansion lies in a token. -/
def LiesIn (x : Expansion k ts) (t : Token) : Prop :=
  t.start ≤ x.dollar.start ∧ x.stop ≤ t.stop

theorem dollar_mem (x : Expansion k ts) : x.dollar ∈ ts := List.mem_of_getElem? x.getElem?_place

theorem last_mem (x : Expansion k ts) : x.last ∈ ts := List.mem_of_getElem? x.getElem?_lastPlace

theorem dollar_stop_lt (x : Expansion k ts) (h : InOrder ts) : x.dollar.stop < x.stop := by
  have := h.stop_le_start_of_lt x.place_lt_lastPlace x.getElem?_place x.getElem?_lastPlace
  have := h.1 x.last x.last_mem
  rw [stop]
  omega

theorem mem_group (x : Expansion k ts) {i : Nat} (hlt : x.place < i) (hle : i ≤ x.lastPlace)
    {t : Token} (ht : ts[i]? = some t) : t ∈ x.group := by
  obtain ⟨n, rfl⟩ : ∃ n, i = x.place + (n + 1) := ⟨i - x.place - 1, by omega⟩
  rw [x.getElem?_place_add, List.getElem?_cons_succ,
    List.getElem?_append_left (by rw [lastPlace] at hle; omega)] at ht
  exact List.mem_of_getElem? ht

/-! ## The units of its pass -/

/-- The token that the pass makes of an expansion at which a unit starts. It covers the
expansion. -/
theorem IsHead.exists_unit {x : Expansion k ts} (h : x.IsHead) (line : Text)
    (horder : InOrder ts) : ∃ u ∈ k.pass.apply line ts, u.start = x.dollar.start ∧
      ∀ t ∈ x.group, u.start ≤ t.start ∧ t.stop ≤ u.stop := by
  refine ⟨_, StartsUnit.glue_mem line h x.drop_eq, glue_start .., fun t ht => ?_⟩
  refine covers_glue line (horder.sublist (unit_sublist x.drop_eq _)) (List.mem_cons_of_mem _ ?_)
  rw [x.extent_eq, List.take_append]
  refine List.mem_append_left _ ?_
  rwa [List.take_of_length_le (by omega)]

theorem IsHead.exists_liesIn {x : Expansion k ts} (h : x.IsHead) (line : Text)
    (horder : InOrder ts) : ∃ u ∈ k.pass.apply line ts, x.LiesIn u := by
  obtain ⟨u, hu, hstart, hcover⟩ := h.exists_unit line horder
  have hlast := x.mem_group x.place_lt_lastPlace (Nat.le_refl _) x.getElem?_lastPlace
  exact ⟨u, hu, Nat.le_of_eq hstart, (hcover _ hlast).2⟩

/-- An expansion in the group of another one is glued together with it. -/
theorem exists_liesIn_of_inside {k' : Bracket} {v : Expansion k ts} (hv : v.IsHead) (line : Text)
    (horder : InOrder ts) (x : Expansion k' ts) (hlt : v.place < x.place)
    (hle : x.lastPlace ≤ v.lastPlace) :
    ∃ u ∈ k.pass.apply line ts, u.start = v.dollar.start ∧ x.LiesIn u := by
  obtain ⟨u, hu, hstart, hcover⟩ := hv.exists_unit line horder
  have hplace := x.place_lt_lastPlace
  have hdollar := v.mem_group hlt (by omega) x.getElem?_place
  have hlast := v.mem_group (by omega) hle x.getElem?_lastPlace
  exact ⟨u, hu, hstart, (hcover _ hdollar).1, (hcover _ hlast).2⟩

end Expansion

/-! ## Where a unit ends -/

theorem Bracket.extent_of_isOperator {o : Token} (ho : o.isOperator = true) (us : List Token) :
    k.pass.extent o us = 0 := by
  rw [Bracket.extent_pass]
  cases us with
  | nil => rfl
  | cons u us =>
    rw [Fusion.dollarGroupExtent, if_neg]
    intro hcond
    simp only [Bool.and_eq_true, beq_iff_eq] at hcond
    rw [Token.isOperator_of_getLast hcond.1.1.2] at ho
    cases ho

/-- If an operator follows a word that a unit takes along, then the unit ends with this word. -/
theorem exists_tail_unit {v : Expansion k ts} (hv : v.IsHead) (horder : InOrder ts)
    (hslices : ∀ t ∈ ts, t.At line) {i : Nat} (hlt : v.lastPlace < i)
    (hle : i ≤ v.lastPlace + adjacentLength v.last v.behind) {d o : Token} {rest : List Token}
    (hdrop : ts.drop i = d :: o :: rest) (ho : o.isOperator = true) (hd : d.value ≠ []) :
    ∃ u front, k.pass.apply line ts = front ++ u :: o :: k.pass.apply line rest ∧
      u.start = v.dollar.start ∧ u.stop = d.stop ∧ u.quote = none ∧
      u.value.getLast? = d.value.getLast? := by
  have hget : ∀ n, ts[i + n]? = (d :: o :: rest)[n]? := fun n => by
    rw [← List.getElem?_drop, hdrop]
  have hplace := v.place_lt_lastPlace
  -- The operator is not taken along.
  have hreach : v.place + reachAt k.pass.extent ts v.place = i := by
    rw [v.reachAt_place]
    have hend : ¬i + 1 ≤ v.lastPlace + adjacentLength v.last v.behind := by
      intro hover
      have hn : i - v.lastPlace < adjacentLength v.last v.behind := by omega
      have hat : v.behind[i - v.lastPlace]? = some o := by
        rw [← v.drop_lastPlace, List.getElem?_drop,
          show v.lastPlace + 1 + (i - v.lastPlace) = i + 1 by omega]
        exact hget 1
      rw [isOperator_of_lt_adjacentLength hn hat] at ho
      cases ho
    rw [Expansion.lastPlace] at hle hend
    omega
  have hpos : 0 < reachAt k.pass.extent ts v.place := by omega
  have hat : ts[v.place + reachAt k.pass.extent ts v.place]? = some d := by
    rw [hreach]
    exact hget 0
  obtain ⟨front, hfront⟩ := StartsUnit.exists_coalesce_eq line hv
  have hbehind : (v.group ++ v.behind).drop (k.pass.extent v.dollar (v.group ++ v.behind)) =
      o :: rest := by
    rw [← drop_unit v.drop_eq, show v.place + 1 + reachAt k.pass.extent ts v.place = i + 1 by omega,
      ← List.drop_drop, hdrop, List.drop_one, List.tail_cons]
  refine ⟨glue line v.dollar ((v.group ++ v.behind).take
    (k.pass.extent v.dollar (v.group ++ v.behind))), front, ?_, glue_start .., ?_, ?_, ?_⟩
  · rw [Fusion.apply, hfront, v.drop_eq, coalesce_zero_cons, hbehind,
      coalesce_cons_of_extent (Bracket.extent_of_isOperator ho rest)]
    rfl
  · exact glue_stop_eq v.drop_eq hat
  · rw [glue]
    split
    · exact v.unquoted
    · rfl
  · have hunit := unit_sublist v.drop_eq (k.pass.extent v.dollar (v.group ++ v.behind))
    obtain ⟨m, hm⟩ := (at_glue (horder.sublist hunit)
      fun t ht => hslices t (hunit.subset ht)).2 d (getLast?_unit v.drop_eq hpos hat)
    rw [hm, List.getLast?_append_of_ne_nil _ hd]

/-! ## What later passes do -/

/-- The tokens that later passes make of those of the pass for a kind: they cover them, and none of
them starts at a token that ends in `$` with a group of this kind behind it, unless it is that
token. -/
structure Coarsens (k : Bracket) (us fs : List Token) : Prop where
  order : InOrder fs
  covers : ∀ u ∈ us, ∃ t ∈ fs, t.start ≤ u.start ∧ u.stop ≤ t.stop
  keeps : ∀ front u o rest, us = front ++ u :: o :: rest → u.value.getLast? = some '$' →
    o.isBare k.opener = true → u ∈ fs ∨ ∃ t ∈ fs, t.start < u.start ∧ u.stop ≤ t.stop

namespace Expansion

/-- One of the tokens holds all of the expansion. -/
def Whole (x : Expansion k ts) (fs : List Token) : Prop := ∃ t ∈ fs, x.LiesIn t

/-- One of the tokens holds the expansion and the one that it follows, and more in front of them. -/
def Enclosed (x : Expansion k ts) (fs : List Token) : Prop :=
  ∃ w : Expansion k ts, w.FollowedBy x ∧ ∃ t ∈ fs, t.start < w.dollar.start ∧ x.LiesIn t

variable {x : Expansion k ts} {fs : List Token}

theorem LiesIn.of_covers {s t : Token} (h : x.LiesIn s)
    (hcover : t.start ≤ s.start ∧ s.stop ≤ t.stop) : x.LiesIn t :=
  ⟨Nat.le_trans hcover.1 h.1, Nat.le_trans h.2 hcover.2⟩

/-- An expansion that follows none at which a unit starts is whole. -/
theorem whole_of_not_isTail (h : ¬x.IsTail) (horder : InOrder ts)
    (hfs : Coarsens k (k.pass.apply line ts) fs) : x.Whole fs := by
  obtain ⟨u, hu, hlies⟩ : ∃ u ∈ k.pass.apply line ts, x.LiesIn u := by
    rcases x.isHead_or_isInner_or_isTail with hhead | ⟨v, hv, hlt, hle⟩ | htail
    · exact hhead.exists_liesIn line horder
    · obtain ⟨u, hu, -, hlies⟩ :=
        exists_liesIn_of_inside hv line horder x hlt (lastPlace_le hlt hle).1
      exact ⟨u, hu, hlies⟩
    · exact absurd htail h
  obtain ⟨t, ht, hcover⟩ := hfs.covers u hu
  exact ⟨t, ht, hlies.of_covers hcover⟩

/-- An expansion in the group of another one is enclosed by it. -/
theorem IsInner.enclosed (h : x.IsInner) (horder : InOrder ts)
    (hfs : Coarsens k (k.pass.apply line ts) fs) {w : Expansion k ts} (hw : w.FollowedBy x) :
    x.Enclosed fs := by
  obtain ⟨v, hv, hlt, hle⟩ := h
  obtain ⟨u, hu, hstart, hlies⟩ :=
    exists_liesIn_of_inside hv line horder x hlt (lastPlace_le hlt hle).1
  obtain ⟨t, ht, hcover⟩ := hfs.covers u hu
  have hbefore := horder.start_lt_start_of_lt ((hw.inside_iff v).mpr ⟨hlt, hle⟩).1
    v.getElem?_place w.getElem?_place
  exact ⟨w, hw, t, ht, by omega, hlies.of_covers hcover⟩

/-- An expansion that follows one at which a unit starts is whole only if it is enclosed. -/
theorem IsTail.enclosed (h : x.IsTail) (horder : InOrder ts) (hslices : ∀ t ∈ ts, t.At line)
    (hfs : Coarsens k (k.pass.apply line ts) fs) (hwhole : x.Whole fs) : x.Enclosed fs := by
  obtain ⟨v, hv, hfollow⟩ := h
  obtain ⟨s, hs, hlies⟩ := hwhole
  obtain ⟨hlt, hle⟩ := followedBy_iff.mp hfollow
  obtain ⟨o, inner, ho, -, hdrop⟩ := x.exists_drop_eq
  obtain ⟨u, front, hpass, hstart, hstop, -, hvalue⟩ :=
    exists_tail_unit hv horder hslices hlt hle hdrop (Bracket.isOperator_of_opener ho)
      x.dollar_value_ne_nil
  have hpositive := horder.1 x.dollar x.dollar_mem
  have hbefore := horder.start_lt_start_of_lt (Nat.lt_trans v.place_lt_lastPlace hlt)
    v.getElem?_place x.getElem?_place
  have hbehind := x.dollar_stop_lt horder
  obtain ⟨hfirst, hlast⟩ := hlies
  -- Whatever holds the expansion shares the bytes of its `$` with whatever covers the unit.
  rcases hfs.keeps front u o _ hpass (hvalue.trans x.ends_dollar) ho with
    hu | ⟨t, ht, hleft, hright⟩
  · obtain rfl := hfs.order.eq_of_overlap hs hu (by omega) (by omega)
    omega
  · obtain rfl := hfs.order.eq_of_overlap hs ht (by omega) (by omega)
    exact ⟨v, hfollow, s, hs, by omega, hfirst, hlast⟩

/-- The expansions of a row that stay whole: every second one, from the first on, and those that are
enclosed. -/
theorem InRow.whole_iff {n : Nat} (h : InRow n x) (horder : InOrder ts)
    (hslices : ∀ t ∈ ts, t.At line) (hfs : Coarsens k (k.pass.apply line ts) fs) :
    x.Whole fs ↔ n % 2 = 0 ∨ x.Enclosed fs := by
  constructor
  · intro hwhole
    rcases Nat.mod_two_eq_zero_or_one n with heven | hodd
    · exact .inl heven
    · right
      rcases x.isHead_or_isInner_or_isTail with hhead | hinner | htail
      · exact absurd hhead (h.parity.2 hodd)
      · cases h with
        | first => cases hodd
        | next _ hw => exact hinner.enclosed horder hfs hw
      · exact htail.enclosed horder hslices hfs hwhole
  · rintro (heven | ⟨w, -, t, ht, -, hlies⟩)
    · exact whole_of_not_isTail (h.parity.1 heven) horder hfs
    · exact ⟨t, ht, hlies⟩

end Expansion

/-! ## The passes behind -/

theorem inOrder_fuseWith (passes : List Fusion) (h : InOrder ts) :
    InOrder (fuseWith passes line ts) := by
  induction passes generalizing ts with
  | nil => exact h
  | cons pass passes ih => exact ih (inOrder_coalesce h)

theorem exists_covering_fuseWith (line : Text) (passes : List Fusion) (h : InOrder ts) {u : Token}
    (hu : u ∈ ts) : ∃ t ∈ fuseWith passes line ts, t.start ≤ u.start ∧ u.stop ≤ t.stop := by
  induction passes generalizing ts u with
  | nil => exact ⟨u, hu, Nat.le_refl _, Nat.le_refl _⟩
  | cons pass passes ih =>
    obtain ⟨s, hs, hstart, hstop⟩ := exists_covering line h hu
    obtain ⟨t, ht, hstart', hstop'⟩ := ih (inOrder_coalesce h) hs
    exact ⟨t, ht, by omega, by omega⟩

/-- A token at which a pass glues nothing stays as it is, or is covered from further left. -/
theorem Fusion.mem_apply_or_covered {pass : Fusion} {front rest : List Token} {u : Token}
    (h : InOrder (front ++ u :: rest)) (hextent : pass.extent u rest = 0) (line : Text) :
    u ∈ pass.apply line (front ++ u :: rest) ∨
      ∃ t ∈ pass.apply line (front ++ u :: rest), t.start < u.start ∧ u.stop ≤ t.stop := by
  have hdrop : (front ++ u :: rest).drop front.length = u :: rest := List.drop_left ..
  have hat : (front ++ u :: rest)[front.length]? = some u := by simp
  obtain ⟨i, hi, hle, hge⟩ := @exists_unit pass.extent (front ++ u :: rest) front.length
  rcases Nat.eq_or_lt_of_le hle with rfl | hlt
  · have hmem := hi.glue_mem line hdrop
    rw [hextent] at hmem
    exact .inl hmem
  · cases hsplit : (front ++ u :: rest).drop i with
    | nil =>
      have := List.drop_eq_nil_iff.mp hsplit
      rw [List.length_append] at this
      omega
    | cons s us =>
      have hs : (front ++ u :: rest)[i]? = some s := by
        rw [← Nat.add_zero i, ← List.getElem?_drop, hsplit]
        rfl
      have hbefore := h.start_lt_start_of_lt hlt hs hat
      have hu : u ∈ us.take (pass.extent s us) := by
        obtain ⟨n, hn⟩ : ∃ n, front.length = i + (n + 1) := ⟨front.length - i - 1, by omega⟩
        rw [hn, ← List.getElem?_drop, hsplit, List.getElem?_cons_succ] at hat
        rw [reachAt_eq hsplit] at hge
        refine List.mem_of_getElem? (i := n) ?_
        rwa [List.getElem?_take_of_lt (by omega)]
      have horder := h.sublist (unit_sublist hsplit (pass.extent s us))
      refine .inr ⟨_, hi.glue_mem line hsplit, by rwa [glue_start], ?_⟩
      exact (covers_glue line horder (List.mem_cons_of_mem _ hu)).2

/-- The passes behind those for expansions. -/
def Fusion.late : List Fusion := [emptyBraces, heredoc, processSubstitution, descriptorRedirection]

theorem Token.isBare_of_getLast {u : Token} (hu : u.value.getLast? = some '$') {v : Text}
    (hv : v.getLast? ≠ some '$') : u.isBare v = false := by
  rw [isBare, Bool.and_eq_false_iff]
  exact .inr (beq_eq_false_iff_ne.mpr fun heq => hv (heq ▸ hu))

theorem Token.isDescriptor_of_getLast {u : Token} (hu : u.value.getLast? = some '$') :
    u.isDescriptor = false := by
  have hdigits : u.value.all Char.isDigit = false := by
    rw [List.all_eq_false]
    exact ⟨'$', List.mem_of_getLast? hu, by decide⟩
  have hamp : (u.value == "&".toList) = false :=
    beq_eq_false_iff_ne.mpr fun heq => by rw [heq] at hu; exact absurd hu (by decide)
  rw [isDescriptor, hdigits, hamp]
  simp

/-- They glue nothing to a token that ends in `$`. -/
theorem Fusion.extent_of_getLast {pass : Fusion} (hp : pass ∈ Fusion.late) {u : Token}
    (hu : u.value.getLast? = some '$') (us : List Token) : pass.extent u us = 0 := by
  have hbrace : u.isBare "\x7b" = false := Token.isBare_of_getLast hu (by decide)
  have hheredoc : u.isBare "<<" = false := Token.isBare_of_getLast hu (by decide)
  have hless : u.isBare "<" = false := Token.isBare_of_getLast hu (by decide)
  have hgreater : u.isBare ">" = false := Token.isBare_of_getLast hu (by decide)
  have happend : u.isBare ">>" = false := Token.isBare_of_getLast hu (by decide)
  have hdescriptor := Token.isDescriptor_of_getLast hu
  have hredirect : u.isRedirectOperator = false := by
    rw [Token.isRedirectOperator, hgreater, happend, hless]
    rfl
  simp only [late, List.mem_cons, List.not_mem_nil, or_false] at hp
  cases us with
  | nil => rcases hp with rfl | rfl | rfl | rfl <;> rfl
  | cons next us =>
    rcases hp with rfl | rfl | rfl | rfl
    · rw [extent, emptyBracesExtent, hbrace]
      rfl
    · rw [extent, heredocExtent, hheredoc]
      rfl
    · rw [extent, processSubstitutionExtent, hless, hgreater]
      rfl
    · rw [extent, descriptorRedirectionExtent, hdescriptor, hredirect]
      rfl

theorem fuseWith_mem_or_covered {passes : List Fusion} (hp : ∀ pass ∈ passes, pass ∈ Fusion.late)
    {u : Token} (hu : u.value.getLast? = some '$') (h : InOrder ts) (hmem : u ∈ ts) (line : Text) :
    u ∈ fuseWith passes line ts ∨
      ∃ t ∈ fuseWith passes line ts, t.start < u.start ∧ u.stop ≤ t.stop := by
  induction passes generalizing ts with
  | nil => exact .inl hmem
  | cons pass passes ih =>
    obtain ⟨front, rest, rfl⟩ := List.append_of_mem hmem
    have hextent := Fusion.extent_of_getLast (hp pass List.mem_cons_self) hu rest
    have hrest : ∀ p ∈ passes, p ∈ Fusion.late := fun p hin => hp p (List.mem_cons_of_mem _ hin)
    rcases Fusion.mem_apply_or_covered h hextent line with hstay | ⟨s, hs, hstart, hstop⟩
    · exact ih hrest (inOrder_coalesce h) hstay
    · obtain ⟨t, ht, hcover⟩ := exists_covering_fuseWith line passes (inOrder_coalesce h) hs
      exact .inr ⟨t, ht, by omega, by omega⟩

/-- Behind the pass for braces, the later ones cover what it made. -/
theorem coarsens_brace (h : InOrder ts) :
    Coarsens .brace (Fusion.braceExpansion.apply line (Fusion.commandSubstitution.apply line ts))
      (fuse line ts) := by
  have horder : InOrder
      (Fusion.braceExpansion.apply line (Fusion.commandSubstitution.apply line ts)) :=
    inOrder_coalesce (inOrder_coalesce h)
  refine ⟨inOrder_fuseWith Fusion.all h, fun u hu => ?_, fun front u o rest heq hu ho => ?_⟩
  · exact exists_covering_fuseWith line Fusion.late horder hu
  · refine fuseWith_mem_or_covered (fun _ hp => hp) hu horder ?_ line
    rw [heq]
    exact List.mem_append_right _ List.mem_cons_self

/-- So they do with what the pass for parentheses made. -/
theorem coarsens_paren (h : InOrder ts) :
    Coarsens .paren (Fusion.commandSubstitution.apply line ts) (fuse line ts) := by
  have horder : InOrder (Fusion.commandSubstitution.apply line ts) := inOrder_coalesce h
  refine ⟨inOrder_fuseWith Fusion.all h, fun u hu => ?_, fun front u o rest heq hu ho => ?_⟩
  · exact exists_covering_fuseWith line (Fusion.braceExpansion :: Fusion.late) horder hu
  · -- The pass for braces finds no brace behind the token.
    have hextent : Bracket.brace.pass.extent u (o :: rest) = 0 :=
      Bracket.extent_of_not_opener (Bracket.isBare_opener_of_ne ho (by decide)) u rest
    rw [heq] at horder
    have hbrace := Fusion.mem_apply_or_covered horder hextent line
    rw [← heq] at hbrace horder
    rcases hbrace with hstay | ⟨s, hs, hstart, hstop⟩
    · exact fuseWith_mem_or_covered (fun _ hp => hp) hu (inOrder_coalesce horder) hstay line
    · obtain ⟨t, ht, hcover⟩ := (coarsens_brace h).covers s hs
      exact .inr ⟨t, ht, by omega, by omega⟩

end CrossShell
