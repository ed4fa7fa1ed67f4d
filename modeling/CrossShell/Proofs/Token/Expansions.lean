import CrossShell.Proofs.Token.Groups
import CrossShell.Proofs.Token.Units

/-!
# Expansions in a row

An expansion is a token that ends in `$` and the group it touches. The pass for its kind glues it
together, and with it the words that touch its end. If such a word ends in `$` and touches a group
itself, then that group is left alone: in a row of expansions without gaps, every second one is
cut.

* `Expansion`: an expansion among some tokens.
* `Expansion.FollowedBy`, `Expansion.InRow`: rows of expansions.
* `Expansion.IsHead`, `IsInner`, `IsTail`: how the unit of a pass that holds the `$` goes on.
* `InRow.parity`: which expansions of a row can be cut.
-/

namespace CrossShell

/-- A token that ends in `$`, unquoted, and the group that it touches. -/
structure Expansion (k : Bracket) (ts : List Token) where
  /-- The number of tokens in front of it. -/
  place : Nat
  /-- The token that ends in `$`. -/
  dollar : Token
  /-- The group. -/
  group : List Token
  /-- The tokens behind the group. -/
  behind : List Token
  drop_eq : ts.drop place = dollar :: (group ++ behind)
  unquoted : dollar.quote = none
  ends_dollar : dollar.value.getLast? = some '$'
  touches : ∀ o ∈ group.head?, dollar.touches o = true
  isGroup : k.Group group behind

/-! ## Operators -/

namespace Bracket

variable {k : Bracket} {t : Token}

theorem isOperator_of_opener (h : t.isBare k.opener = true) : t.isOperator = true := by
  rw [Token.isBare, Bool.and_eq_true, beq_iff_eq] at h
  rw [Token.isOperator, h.1, h.2]
  cases k <;> rfl

theorem isOperator_of_closer (h : t.isBare k.closer = true) : t.isOperator = true := by
  rw [Token.isBare, Bool.and_eq_true, beq_iff_eq] at h
  rw [Token.isOperator, h.1, h.2]
  cases k <;> rfl

/-- A group is closed, or it goes on to the last token. -/
theorem Group.closed_or_unclosed {group behind : List Token} (h : k.Group group behind) :
    ∃ o inner, o.isBare k.opener = true ∧
      ((∃ c, group = o :: (inner ++ [c]) ∧ k.Balanced inner ∧ c.isBare k.closer = true) ∨
        group = o :: inner ∧ behind = [] ∧ k.Within 0 inner) := by
  cases h with
  | closed ho hinner hc => exact ⟨_, _, ho, .inl ⟨_, rfl, hinner, hc⟩⟩
  | unclosed ho hinner => exact ⟨_, _, ho, .inr ⟨rfl, rfl, hinner⟩⟩

/-- The tokens of a group that are known: its first, and its last if something stands behind it. -/
theorem Group.ends {group behind : List Token} (h : k.Group group behind) :
    (∃ o inner, group = o :: inner ∧ o.isBare k.opener = true) ∧
      (behind ≠ [] → ∃ o c inner, group = o :: (inner ++ [c]) ∧ k.Balanced inner ∧
        c.isBare k.closer = true) := by
  cases h with
  | closed ho hinner hc => exact ⟨⟨_, _, rfl, ho⟩, fun _ => ⟨_, _, _, rfl, hinner, hc⟩⟩
  | unclosed ho => exact ⟨⟨_, _, rfl, ho⟩, fun h => absurd rfl h⟩

/-- A group that opens in balanced tokens ends in them. -/
theorem length_le_of_balanced {before inner rest group behind : List Token} {o : Token}
    (h : k.Balanced (before ++ o :: inner)) (ho : o.isBare k.opener = true)
    (hgroup : k.Group group behind) (heq : group ++ behind = o :: (inner ++ rest)) :
    group.length ≤ inner.length + 1 := by
  obtain ⟨hwithin, hcount⟩ := h
  have hbefore := hwithin before (List.prefix_append _ _)
  rw [closes_append, opens_append, closes_cons, opens_cons, if_pos ho,
    isBare_closer_of_opener ho] at hcount
  simp only [Bool.false_eq_true, ↓reduceIte] at hcount
  rcases exists_closing_or_within (k := k) 0 inner with
    ⟨inside, c, after, rfl, hinside, hsame, hc⟩ | hall
  · have hfound : k.Group (o :: (inside ++ [c])) (after ++ rest) :=
      .closed ho ⟨hinside, by omega⟩ hc _
    have hlength := groupLength_of_group hfound
    rw [← groupLength_of_group hgroup, heq]
    simp only [List.cons_append, List.append_assoc, List.nil_append] at hlength ⊢
    rw [hlength]
    simp only [List.length_cons, List.length_append, List.length_nil]
    omega
  · have := hall inner (List.prefix_refl _)
    omega

end Bracket

theorem Token.isOperator_of_getLast {t : Token} (h : t.value.getLast? = some '$') :
    t.isOperator = false := by
  have hends : ∀ op ∈ operators, op.getLast? ≠ some '$' := by decide +kernel
  rw [Token.isOperator, Bool.and_eq_false_iff]
  refine .inr (Bool.eq_false_iff.mpr fun hmem => ?_)
  exact hends _ (List.contains_iff_mem.mp hmem) h

/-! ## Tokens that touch -/

/-- Tokens without a gap between them, from `last` on, that are no operators. -/
def Joined : Token → List Token → Prop
  | _, [] => True
  | last, t :: ts => last.touches t = true ∧ t.isOperator = false ∧ Joined t ts

theorem adjacentLength_le (last : Token) (ts : List Token) :
    adjacentLength last ts ≤ ts.length := by
  induction ts generalizing last with
  | nil => exact Nat.le_refl _
  | cons t ts ih =>
    rw [adjacentLength, List.length_cons]
    have := ih t
    split <;> omega

/-- The words that a pass takes along are those that are joined. -/
theorem joined_take_iff {last : Token} {ts : List Token} {n : Nat} (hn : n ≤ ts.length) :
    Joined last (ts.take n) ↔ n ≤ adjacentLength last ts := by
  induction ts generalizing last n with
  | nil =>
    obtain rfl : n = 0 := Nat.le_zero.mp hn
    exact iff_of_true trivial (Nat.zero_le _)
  | cons t ts ih =>
    cases n with
    | zero => exact iff_of_true trivial (Nat.zero_le _)
    | succ n =>
      rw [List.length_cons] at hn
      rw [List.take_succ_cons, Joined, adjacentLength, ih (by omega)]
      by_cases htouch : last.touches t = true
      · cases hop : t.isOperator <;> simp [htouch]
      · simp [htouch]

theorem isOperator_of_lt_adjacentLength {last : Token} {ts : List Token} {i : Nat}
    (h : i < adjacentLength last ts) {t : Token} (ht : ts[i]? = some t) : t.isOperator = false := by
  induction ts generalizing last i with
  | nil => cases h
  | cons u ts ih =>
    rw [adjacentLength] at h
    split at h
    · rename_i hcond
      rw [Bool.and_eq_true, Bool.not_eq_true'] at hcond
      cases i with
      | zero =>
        rw [List.getElem?_cons_zero, Option.some.injEq] at ht
        exact ht ▸ hcond.2
      | succ i => exact ih (Nat.lt_of_succ_lt_succ h) ht
    · cases h

namespace Expansion

variable {k : Bracket} {ts : List Token} (x : Expansion k ts)

/-- The place of the last token of the group. -/
def lastPlace : Nat := x.place + x.group.length

/-- The last token of the group. -/
def last : Token := x.group.getLast?.getD x.dollar

/-- Where the group ends. -/
def stop : Nat := x.last.stop

/-! ## Where its tokens are -/

theorem getElem?_place_add (i : Nat) :
    ts[x.place + i]? = (x.dollar :: (x.group ++ x.behind))[i]? := by
  rw [← List.getElem?_drop, x.drop_eq]

theorem getElem?_place : ts[x.place]? = some x.dollar := x.getElem?_place_add 0

theorem lastPlace_lt : x.lastPlace < ts.length := by
  have h := congrArg List.length x.drop_eq
  rw [List.length_drop, List.length_cons, List.length_append] at h
  rw [lastPlace]
  omega

theorem place_lt_lastPlace : x.place < x.lastPlace := by
  obtain ⟨⟨o, inner, hgroup, -⟩, -⟩ := x.isGroup.ends
  rw [lastPlace, hgroup, List.length_cons]
  omega

theorem drop_succ_place : ts.drop (x.place + 1) = x.group ++ x.behind := by
  rw [← List.drop_drop, x.drop_eq, List.drop_one, List.tail_cons]

theorem drop_lastPlace : ts.drop (x.lastPlace + 1) = x.behind := by
  rw [lastPlace, Nat.add_assoc, ← List.drop_drop, x.drop_eq, List.drop_succ_cons,
    List.drop_left]

theorem exists_opener : ∃ o, o.isBare k.opener = true ∧ ts[x.place + 1]? = some o ∧
    x.group.head? = some o := by
  obtain ⟨⟨o, inner, hgroup, ho⟩, -⟩ := x.isGroup.ends
  refine ⟨o, ho, ?_, by rw [hgroup]; rfl⟩
  rw [x.getElem?_place_add, List.getElem?_cons_succ, hgroup]
  rfl

/-- The tokens from the `$` on, with the one that opens the group. -/
theorem exists_drop_eq : ∃ o inner, o.isBare k.opener = true ∧ x.group = o :: inner ∧
    ts.drop x.place = x.dollar :: o :: (inner ++ x.behind) := by
  obtain ⟨⟨o, inner, hgroup, ho⟩, -⟩ := x.isGroup.ends
  exact ⟨o, inner, ho, hgroup, by rw [x.drop_eq, hgroup, List.cons_append]⟩

theorem dollar_value_ne_nil : x.dollar.value ≠ [] := by
  intro hnil
  have hends := x.ends_dollar
  rw [hnil] at hends
  cases hends

/-- No operator ends in `$`. -/
theorem place_ne_of_isOperator {i : Nat} {t : Token} (ht : ts[i]? = some t)
    (hop : t.isOperator = true) : x.place ≠ i := by
  rintro rfl
  rw [x.getElem?_place, Option.some.injEq] at ht
  rw [← ht, Token.isOperator_of_getLast x.ends_dollar] at hop
  cases hop

theorem getElem?_lastPlace : ts[x.lastPlace]? = some x.last := by
  obtain ⟨⟨o, inner, hgroup, -⟩, -⟩ := x.isGroup.ends
  rw [lastPlace, x.getElem?_place_add, last, List.getLast?_eq_getElem?, hgroup, List.length_cons,
    List.getElem?_cons_succ, Nat.add_sub_cancel, List.getElem?_append_left (by simp)]
  obtain ⟨l, hl⟩ : ∃ l, (o :: inner)[inner.length]? = some l :=
    ⟨_, List.getElem?_eq_getElem (by simp)⟩
  rw [hl, Option.getD_some]

/-- If something stands behind the group, its last token closes it. -/
theorem exists_closed (h : x.lastPlace + 1 < ts.length) :
    ∃ o inner, x.group = o :: (inner ++ [x.last]) ∧ k.Balanced inner ∧
      x.last.isBare k.closer = true := by
  have hbehind : x.behind ≠ [] := by
    intro hnil
    have hlength := congrArg List.length x.drop_lastPlace
    rw [List.length_drop, hnil, List.length_nil] at hlength
    omega
  obtain ⟨o, c, inner, hgroup, hinner, hc⟩ := x.isGroup.ends.2 hbehind
  have hlast : x.last = c := by
    rw [last, hgroup, ← List.cons_append, List.getLast?_append]
    rfl
  rw [hlast]
  exact ⟨o, inner, hgroup, hinner, hc⟩

theorem isOperator_last (h : x.lastPlace + 1 < ts.length) : x.last.isOperator = true := by
  obtain ⟨o, inner, -, -, hc⟩ := x.exists_closed h
  exact Bracket.isOperator_of_closer hc

/-- The group is found by counting. -/
theorem group_length :
    x.group.length = groupLength k.opener k.closer 0 (ts.drop (x.place + 1)) := by
  rw [x.drop_succ_place, Bracket.groupLength_of_group x.isGroup]

theorem group_eq_take : x.group = (ts.drop (x.place + 1)).take x.group.length := by
  rw [x.drop_succ_place, List.take_left]

/-- An expansion is known by its place. -/
theorem group_length_eq {x y : Expansion k ts} (h : x.place = y.place) :
    x.group.length = y.group.length := by
  rw [group_length, group_length, h]

theorem lastPlace_eq {x y : Expansion k ts} (h : x.place = y.place) :
    x.lastPlace = y.lastPlace := by
  rw [lastPlace, lastPlace, group_length_eq h, h]

/-- An expansion whose `$` and opening token stand in balanced tokens ends in them. -/
theorem lastPlace_lt_of_balanced {i : Nat} {inner rest : List Token}
    (hdrop : ts.drop i = inner ++ rest) (hinner : k.Balanced inner) (hle : i ≤ x.place)
    (hlt : x.place + 1 < i + inner.length) :
    x.lastPlace < i + inner.length := by
  obtain ⟨o, ho, hopener, -⟩ := x.exists_opener
  -- The opening token divides the balanced ones.
  obtain ⟨n, hn⟩ : ∃ n, x.place + 1 = i + n := ⟨x.place + 1 - i, by omega⟩
  have hat : inner[n]? = some o := by
    have hleft : (inner ++ rest)[n]? = inner[n]? := List.getElem?_append_left (by omega)
    rw [← hleft, ← hdrop, List.getElem?_drop, ← hn]
    exact hopener
  obtain ⟨hbound, hget⟩ := List.getElem?_eq_some_iff.mp hat
  have hdivided : inner.drop n = o :: inner.drop (n + 1) := by
    rw [List.drop_eq_getElem_cons hbound, hget]
  have hsplit : inner = inner.take n ++ o :: inner.drop (n + 1) := by
    rw [← hdivided, List.take_append_drop]
  have hgroup : x.group ++ x.behind = o :: (inner.drop (n + 1) ++ rest) := by
    rw [← x.drop_succ_place, hn, ← List.drop_drop, hdrop,
      List.drop_append_of_le_length (by omega), hdivided, List.cons_append]
  rw [hsplit] at hinner
  have hlength := Bracket.length_le_of_balanced hinner ho x.isGroup hgroup
  rw [List.length_drop] at hlength
  rw [lastPlace]
  omega

/-- An expansion whose `$` stands in the group of another ends there. -/
theorem lastPlace_le {v x : Expansion k ts} (hlt : v.place < x.place)
    (hle : x.place ≤ v.lastPlace) :
    x.lastPlace ≤ v.lastPlace ∧ (v.lastPlace + 1 < ts.length → x.lastPlace < v.lastPlace) := by
  by_cases hend : v.lastPlace + 1 < ts.length
  · suffices h : x.lastPlace < v.lastPlace from ⟨by omega, fun _ => h⟩
    obtain ⟨o, inner, hgroup, hinner, hc⟩ := v.exists_closed hend
    have hdrop : ts.drop (v.place + 2) = inner ++ (v.last :: v.behind) := by
      rw [← List.drop_drop, v.drop_eq, hgroup]
      simp
    have hlast : v.lastPlace = v.place + 2 + inner.length := by
      rw [lastPlace, hgroup]
      simp only [List.length_cons, List.length_append, List.length_nil]
      omega
    -- Neither end of the group ends in `$`, and its last token opens nothing.
    obtain ⟨vo, hvo, hvplace, -⟩ := v.exists_opener
    have hfirst := x.place_ne_of_isOperator hvplace (Bracket.isOperator_of_opener hvo)
    have hlastDollar := x.place_ne_of_isOperator v.getElem?_lastPlace (v.isOperator_last hend)
    obtain ⟨xo, hxo, hxplace, -⟩ := x.exists_opener
    have hclosing : x.place + 1 ≠ v.lastPlace := by
      intro heq
      rw [heq, v.getElem?_lastPlace, Option.some.injEq] at hxplace
      rw [← hxplace, Bracket.isBare_opener_of_closer hc] at hxo
      cases hxo
    rw [hlast]
    exact x.lastPlace_lt_of_balanced hdrop hinner (by omega) (by omega)
  · have := x.lastPlace_lt
    exact ⟨by omega, fun h => absurd h hend⟩

end Expansion

/-! ## What its pass makes of it -/

/-- The pass that glues the expansions of a kind together. -/
def Bracket.pass : Bracket → Fusion
  | paren => .commandSubstitution
  | brace => .braceExpansion

theorem Bracket.extent_pass (k : Bracket) :
    k.pass.extent = Fusion.dollarGroupExtent k.opener k.closer := by
  cases k <;> rfl

/-- The pass glues nothing to a token with no opening token behind it. -/
theorem Bracket.extent_of_not_opener {k : Bracket} {o : Token} (ho : o.isBare k.opener = false)
    (t : Token) (us : List Token) : k.pass.extent t (o :: us) = 0 := by
  rw [Bracket.extent_pass, Fusion.dollarGroupExtent, ho, Bool.and_false, Bool.false_and]
  rfl

section

variable {k : Bracket} {ts : List Token}

/-- The pass glues its group to a token that ends in `$`, and what touches the end of the group. -/
theorem Expansion.extent_eq (x : Expansion k ts) :
    k.pass.extent x.dollar (x.group ++ x.behind) =
      x.group.length + adjacentLength x.last x.behind := by
  obtain ⟨⟨o, inner, hgroup, ho⟩, -⟩ := x.isGroup.ends
  have htouches : x.dollar.touches o = true := x.touches o (by rw [hgroup]; rfl)
  have hlength := Bracket.groupLength_of_group x.isGroup
  have hcond : (x.dollar.quote.isNone && x.dollar.value.getLast? == some '$' &&
      o.isBare k.opener && x.dollar.touches o) = true := by
    rw [x.unquoted, x.ends_dollar, ho, htouches]
    rfl
  rw [Bracket.extent_pass, last]
  rw [hgroup, List.cons_append] at hlength ⊢
  rw [Fusion.dollarGroupExtent, if_pos hcond, hlength, withAdjacent, ← List.cons_append,
    List.take_left, List.drop_left]

theorem Expansion.reachAt_place (x : Expansion k ts) :
    reachAt k.pass.extent ts x.place = x.group.length + adjacentLength x.last x.behind := by
  rw [reachAt_eq x.drop_eq, x.extent_eq, List.length_append]
  have := adjacentLength_le x.last x.behind
  omega

/-- Where the pass glues anything, there is an expansion. -/
theorem exists_expansion {i : Nat} {t : Token} {us : List Token} (hdrop : ts.drop i = t :: us)
    (h : k.pass.extent t us ≠ 0) : ∃ x : Expansion k ts, x.place = i := by
  rw [Bracket.extent_pass] at h
  cases us with
  | nil => exact absurd rfl h
  | cons o rest =>
    rw [Fusion.dollarGroupExtent] at h
    split at h
    · rename_i hcond
      simp only [Bool.and_eq_true, beq_iff_eq, Option.isNone_iff_eq_none] at hcond
      obtain ⟨⟨⟨hquote, hdollar⟩, ho⟩, htouches⟩ := hcond
      obtain ⟨group, behind, heq, hgroup⟩ := Bracket.exists_group ho rest
      have hhead : group.head? = some o := by
        obtain ⟨⟨o', inner, rfl, -⟩, -⟩ := hgroup.ends
        rw [List.cons_append, List.cons.injEq] at heq
        rw [heq.1]
        rfl
      refine ⟨⟨i, t, group, behind, by rw [hdrop, heq], hquote, hdollar, ?_, hgroup⟩, rfl⟩
      intro o' ho'
      rw [hhead, Option.mem_some_iff] at ho'
      exact ho' ▸ htouches
    · exact absurd rfl h

theorem exists_expansion_of_reachAt {i : Nat} (h : reachAt k.pass.extent ts i ≠ 0) :
    ∃ x : Expansion k ts, x.place = i := by
  cases hdrop : ts.drop i with
  | nil =>
    rw [reachAt, hdrop] at h
    exact absurd rfl h
  | cons t us =>
    rw [reachAt_eq hdrop] at h
    exact exists_expansion hdrop (by omega)

end

/-! ## Rows -/

namespace Expansion

variable {k : Bracket} {ts : List Token}

/-- The token of `y` that ends in `$` is joined to the end of `x`: between the two expansions there
are only words, and no gap. -/
def FollowedBy (x y : Expansion k ts) : Prop :=
  ∃ n, 0 < n ∧ y.place = x.lastPlace + n ∧ Joined x.last (x.behind.take n)

/-- The expansion has number `n` in a row of expansions that follow each other, counted from
zero. -/
inductive InRow : Nat → Expansion k ts → Prop
  /-- It follows none. -/
  | first {x : Expansion k ts} (h : ∀ w : Expansion k ts, ¬w.FollowedBy x) : InRow 0 x
  /-- It follows the one before it. -/
  | next {n : Nat} {w x : Expansion k ts} (hw : InRow n w) (h : w.FollowedBy x) : InRow (n + 1) x

theorem followedBy_iff {x y : Expansion k ts} :
    x.FollowedBy y ↔ x.lastPlace < y.place ∧
      y.place ≤ x.lastPlace + adjacentLength x.last x.behind := by
  have hlength : x.behind.length = ts.length - (x.lastPlace + 1) := by
    rw [← x.drop_lastPlace, List.length_drop]
  have hbound := y.lastPlace_lt
  have hplace := y.place_lt_lastPlace
  constructor
  · rintro ⟨n, hpos, heq, hjoined⟩
    have := (joined_take_iff (by omega)).mp hjoined
    omega
  · rintro ⟨hlt, hle⟩
    obtain ⟨n, hn⟩ : ∃ n, y.place = x.lastPlace + n := ⟨y.place - x.lastPlace, by omega⟩
    have hadjacent : n ≤ adjacentLength x.last x.behind := by omega
    exact ⟨n, by omega, hn, (joined_take_iff (by omega)).mpr hadjacent⟩

/-- The pass takes the `$` of an expansion along with the one that it follows. -/
theorem followedBy_iff_reachAt {x y : Expansion k ts} :
    x.FollowedBy y ↔ x.lastPlace < y.place ∧
      y.place ≤ x.place + reachAt k.pass.extent ts x.place := by
  rw [followedBy_iff, x.reachAt_place, lastPlace, Nat.add_assoc]

/-- Between two expansions that follow each other there is no operator. -/
theorem FollowedBy.isOperator {x y : Expansion k ts} (h : x.FollowedBy y) {i : Nat}
    (hlt : x.lastPlace < i) (hle : i ≤ y.place) {t : Token} (ht : ts[i]? = some t) :
    t.isOperator = false := by
  obtain ⟨-, hadjacent⟩ := followedBy_iff.mp h
  obtain ⟨n, rfl⟩ : ∃ n, i = x.lastPlace + 1 + n := ⟨i - x.lastPlace - 1, by omega⟩
  have hn : n < adjacentLength x.last x.behind := by omega
  rw [← List.getElem?_drop, x.drop_lastPlace] at ht
  exact isOperator_of_lt_adjacentLength hn ht

/-- The place of an operator up to the second of two expansions is in the first or before it. -/
theorem FollowedBy.le_lastPlace {x y : Expansion k ts} (h : x.FollowedBy y) {i : Nat}
    (hle : i ≤ y.place) {t : Token} (ht : ts[i]? = some t) (hop : t.isOperator = true) :
    i ≤ x.lastPlace := by
  by_contra hlt
  rw [h.isOperator (by omega) hle ht] at hop
  cases hop

/-- The opening token behind a `$` that stands before another `$`. -/
theorem FollowedBy.place_lt_of_lt {w x v : Expansion k ts} (h : w.FollowedBy x)
    (hlt : v.place < x.place) : v.place < w.lastPlace := by
  obtain ⟨o, ho, hplace, -⟩ := v.exists_opener
  exact h.le_lastPlace (by omega) hplace (Bracket.isOperator_of_opener ho)

/-- An expansion in front of the second of two that follow each other ends with the first, unless
it starts behind it. -/
theorem FollowedBy.lastPlace_le {w x v : Expansion k ts} (h : w.FollowedBy x)
    (hlt : v.place < x.place) (hle : w.place ≤ v.place) : v.lastPlace ≤ w.lastPlace := by
  rcases Nat.eq_or_lt_of_le hle with heq | hwv
  · exact Nat.le_of_eq (lastPlace_eq heq.symm)
  · exact (Expansion.lastPlace_le hwv (Nat.le_of_lt (h.place_lt_of_lt hlt))).1

/-- An expansion follows at most one other. -/
theorem FollowedBy.place_eq {w v x : Expansion k ts} (hw : w.FollowedBy x)
    (hv : v.FollowedBy x) : w.place = v.place := by
  -- Of two that it follows, the second lies in the group of the first, and its end is joined to `x`
  -- without the token that closes this group.
  have hnot : ∀ {w v : Expansion k ts}, w.FollowedBy x → v.FollowedBy x → ¬w.place < v.place := by
    intro w v hw hv hlt
    have hvx := (followedBy_iff.mp hv).1
    have hwx := (followedBy_iff.mp hw).1
    have hplace := v.place_lt_lastPlace
    have hinner := hw.place_lt_of_lt (v := v) (by omega)
    have hbound := x.lastPlace_lt
    have hstart := x.place_lt_lastPlace
    have hstrict := (Expansion.lastPlace_le hlt (Nat.le_of_lt hinner)).2 (by omega)
    have hclosing := w.isOperator_last (by omega)
    have := hv.le_lastPlace (by omega) w.getElem?_lastPlace hclosing
    omega
  have h1 := hnot hw hv
  have h2 := hnot hv hw
  omega

/-- Of two expansions that follow each other, both lie in a group or none does. -/
theorem FollowedBy.inside_iff {w x : Expansion k ts} (h : w.FollowedBy x)
    (v : Expansion k ts) :
    (v.place < w.place ∧ w.place ≤ v.lastPlace) ↔ v.place < x.place ∧ x.place ≤ v.lastPlace := by
  have hwx := (followedBy_iff.mp h).1
  have hw := w.place_lt_lastPlace
  have hx := x.place_lt_lastPlace
  have hbound := x.lastPlace_lt
  constructor
  · rintro ⟨hlt, hle⟩
    refine ⟨by omega, ?_⟩
    obtain ⟨hend, hstrict⟩ := Expansion.lastPlace_le hlt hle
    by_contra hover
    -- The token that closes `v` would stand between the two.
    have hclosing := v.isOperator_last (by omega)
    have := h.le_lastPlace (by omega) v.getElem?_lastPlace hclosing
    have := hstrict (by omega)
    omega
  · rintro ⟨hlt, hle⟩
    have hvw : v.place < w.place := by
      by_contra hge
      have := h.lastPlace_le hlt (by omega)
      omega
    exact ⟨hvw, by omega⟩

theorem exists_inRow (x : Expansion k ts) : ∃ n, InRow n x := by
  induction hn : x.place using Nat.strongRecOn generalizing x with
  | ind n ih =>
    by_cases h : ∃ w : Expansion k ts, w.FollowedBy x
    · obtain ⟨w, hw⟩ := h
      have hlt := (followedBy_iff.mp hw).1
      have hplace := w.place_lt_lastPlace
      obtain ⟨m, hm⟩ := ih w.place (by omega) w rfl
      exact ⟨m + 1, .next hm hw⟩
    · exact ⟨0, .first fun w hw => h ⟨w, hw⟩⟩

/-! ## The unit that holds the `$` -/

/-- A unit starts at the expansion. -/
def IsHead (x : Expansion k ts) : Prop := StartsUnit k.pass.extent ts x.place

/-- The expansion stands in the group of another one at which a unit starts. -/
def IsInner (x : Expansion k ts) : Prop :=
  ∃ v : Expansion k ts, v.IsHead ∧ v.place < x.place ∧ x.place ≤ v.lastPlace

/-- The expansion follows another one at which a unit starts. -/
def IsTail (x : Expansion k ts) : Prop := ∃ v : Expansion k ts, v.IsHead ∧ v.FollowedBy x

theorem isHead_or_isInner_or_isTail (x : Expansion k ts) : x.IsHead ∨ x.IsInner ∨ x.IsTail := by
  obtain ⟨i, hi, hle, hge⟩ := @exists_unit k.pass.extent ts x.place
  rcases Nat.eq_or_lt_of_le hle with rfl | hlt
  · exact .inl hi
  have hreach : reachAt k.pass.extent ts i ≠ 0 := by omega
  obtain ⟨v, rfl⟩ := exists_expansion_of_reachAt hreach
  by_cases hin : x.place ≤ v.lastPlace
  · exact .inr (.inl ⟨v, hi, hlt, hin⟩)
  · exact .inr (.inr ⟨v, hi, followedBy_iff_reachAt.mpr ⟨by omega, hge⟩⟩)

/-- The unit of an expansion at which one starts goes on behind its group. -/
theorem IsHead.lastPlace_lt {v : Expansion k ts} (hv : v.IsHead) {i : Nat}
    (hi : StartsUnit k.pass.extent ts i) (h : v.place < i) :
    v.lastPlace + adjacentLength v.last v.behind < i := by
  have hlt := StartsUnit.lt hv hi h
  rw [v.reachAt_place] at hlt
  rw [lastPlace]
  omega

theorem IsTail.not_isHead {x : Expansion k ts} (h : x.IsTail) : ¬x.IsHead := by
  obtain ⟨v, hv, hfollow⟩ := h
  intro hx
  obtain ⟨hlt, hle⟩ := followedBy_iff.mp hfollow
  have hplace := v.place_lt_lastPlace
  have := hv.lastPlace_lt hx (by omega)
  omega

theorem IsInner.not_isHead {x : Expansion k ts} (h : x.IsInner) : ¬x.IsHead := by
  obtain ⟨v, hv, hlt, hle⟩ := h
  intro hx
  have := hv.lastPlace_lt hx hlt
  omega

/-- Every second expansion of a row is cut at most, and the others are not. -/
theorem InRow.parity {n : Nat} {x : Expansion k ts} (h : InRow n x) :
    (n % 2 = 0 → ¬x.IsTail) ∧ (n % 2 = 1 → ¬x.IsHead) := by
  induction h with
  | @first x hfirst =>
    exact ⟨fun _ ⟨w, _, hw⟩ => hfirst w hw, fun h => by cases h⟩
  | @next n w x hw hfollow ih =>
    refine ⟨fun heven => ?_, fun hodd => ?_⟩
    · -- The one before is no head, and nothing else is followed by this one.
      rintro ⟨v, hv, hvx⟩
      have hplace := hfollow.place_eq hvx
      refine ih.2 (by omega) ?_
      rw [IsHead, hplace]
      exact hv
    · rcases w.isHead_or_isInner_or_isTail with hhead | ⟨v, hv, hinner⟩ | htail
      · exact IsTail.not_isHead ⟨w, hhead, hfollow⟩
      · obtain ⟨hlt, hle⟩ := (hfollow.inside_iff v).mp hinner
        exact IsInner.not_isHead ⟨v, hv, hlt, hle⟩
      · exact absurd htail (ih.1 (by omega))

end Expansion

end CrossShell
