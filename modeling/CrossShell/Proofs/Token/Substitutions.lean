import CrossShell.Proofs.Token.Groups
import CrossShell.Proofs.Token.Wholeness

/-!
# Process substitutions that are open

A process substitution goes from `<(` or `>(` to the parenthesis that closes it. The pass for them
glues all of it together, so a token inside of one is not the start of a token any more.

* `OpenSubstitution`: the tokens leave a process substitution open.
* `exists_start_iff_not_openSubstitution`: the pass keeps the start of a token exactly if none is
  open before it.
* `openSubstitution_filter`: only angles and parentheses count for that.
-/

namespace CrossShell

/-- Two tokens that start a process substitution. -/
def startsSubstitution (o p : Token) : Bool :=
  (o.isBare "<" || o.isBare ">") && p.isBare "(" && o.touches p

/-- Some process substitution that starts among the tokens is not closed among them. -/
def OpenSubstitution (ts : List Token) : Prop :=
  ∃ before o p inside, ts = before ++ o :: p :: inside ∧ startsSubstitution o p = true ∧
    Bracket.paren.Within 0 inside

/-! ## Taking tokens off the front -/

section Front

variable {o p c : Token} {ts inner behind : List Token}

theorem isBare_opener_of_starts (h : startsSubstitution o p = true) :
    p.isBare Bracket.paren.opener = true := by
  simp only [startsSubstitution, Bool.and_eq_true] at h
  exact h.1.2

/-- What starts a process substitution neither opens nor closes a group itself. -/
theorem not_paren_of_starts (h : startsSubstitution o p = true) :
    o.isBare Bracket.paren.opener = false ∧ o.isBare Bracket.paren.closer = false := by
  have hne : ∀ v ∈ [['<'], ['>']], (v == ['(']) = false ∧ (v == [')']) = false := by decide
  have hvalue : o.value ∈ [['<'], ['>']] := by
    simp only [startsSubstitution, Token.isBare, Bool.and_eq_true, Bool.or_eq_true,
      beq_iff_eq] at h
    rcases h.1.1 with ⟨-, hv⟩ | ⟨-, hv⟩ <;> rw [hv] <;> decide
  exact ⟨by rw [Token.isBare, Bracket.opener, (hne _ hvalue).1, Bool.and_false],
    by rw [Token.isBare, Bracket.closer, (hne _ hvalue).2, Bool.and_false]⟩

theorem not_openSubstitution_nil : ¬OpenSubstitution [] := by
  rintro ⟨before, o, p, inside, h, -⟩
  simp at h

/-- An open substitution starts with the first token or among those behind it. -/
theorem openSubstitution_cons : OpenSubstitution (o :: ts) ↔
    (∃ p inside, ts = p :: inside ∧ startsSubstitution o p = true ∧
      Bracket.paren.Within 0 inside) ∨ OpenSubstitution ts := by
  constructor
  · rintro ⟨before, o', p, inside, h, hstarts, hwithin⟩
    cases before with
    | nil =>
      obtain ⟨rfl, rfl⟩ := List.cons.inj h
      exact .inl ⟨p, inside, rfl, hstarts, hwithin⟩
    | cons b before =>
      obtain ⟨-, rfl⟩ := List.cons.inj h
      exact .inr ⟨before, o', p, inside, rfl, hstarts, hwithin⟩
  · rintro (⟨p, inside, rfl, hstarts, hwithin⟩ | ⟨before, o', p, inside, rfl, hstarts, hwithin⟩)
    · exact ⟨[], o, p, inside, rfl, hstarts, hwithin⟩
    · exact ⟨o :: before, o', p, inside, rfl, hstarts, hwithin⟩

/-- Tokens with one more closing token than opening ones do not stay within a group. -/
theorem not_within_append (hcount : Bracket.paren.opens inner ≤ Bracket.paren.closes inner)
    (hc : c.isBare Bracket.paren.closer = true) (behind : List Token) :
    ¬Bracket.paren.Within 0 (inner ++ c :: behind) := by
  intro hwithin
  have hprefix : inner ++ [c] <+: inner ++ c :: behind := ⟨behind, by simp⟩
  have hle := hwithin _ hprefix
  have hopener : c.isBare Bracket.paren.opener = false := Bracket.isBare_opener_of_closer hc
  rw [Bracket.closes_append, Bracket.opens_append, Bracket.closes_cons, Bracket.opens_cons, hc,
    hopener] at hle
  simp only [if_true, Bool.false_eq_true, if_false, Bracket.closes_nil, Bracket.opens_nil] at hle
  omega

/-- No substitution that starts in a closed group is open behind it. -/
theorem openSubstitution_append_closed (hinner : Bracket.paren.Balanced inner)
    (hc : c.isBare Bracket.paren.closer = true) :
    OpenSubstitution (inner ++ c :: behind) ↔ OpenSubstitution behind := by
  refine ⟨?_, fun ⟨before, o, p, inside, h, hrest⟩ =>
    ⟨inner ++ c :: before, o, p, inside, by simp [h], hrest⟩⟩
  rintro ⟨before, o, p, inside, h, hstarts, hwithin⟩
  have hne : o ≠ c := by
    rintro rfl
    rw [(not_paren_of_starts hstarts).2] at hc
    cases hc
  have hopener := isBare_opener_of_starts hstarts
  rcases List.append_eq_append_iff.mp h with ⟨more, rfl, hmore⟩ | ⟨more, rfl, hmore⟩
  · -- It starts behind the group.
    cases more with
    | nil => exact absurd (List.cons.inj hmore).1.symm hne
    | cons d more =>
      obtain ⟨-, rfl⟩ := List.cons.inj hmore
      exact ⟨more, o, p, inside, rfl, hstarts, hwithin⟩
  · cases more with
    | nil => exact absurd (List.cons.inj hmore).1 hne
    | cons d more =>
      obtain ⟨rfl, htail⟩ := List.cons.inj hmore
      cases more with
      | nil =>
        obtain ⟨rfl, -⟩ : p = c ∧ inside = behind := List.cons.inj htail
        rw [Bracket.isBare_closer_of_opener hopener] at hc
        cases hc
      | cons d more =>
        -- It starts in the group, and so ends in it.
        obtain ⟨rfl, rfl⟩ : p = d ∧ inside = more ++ c :: behind := List.cons.inj htail
        refine absurd hwithin (not_within_append ?_ hc behind)
        obtain ⟨ho, hoc⟩ := not_paren_of_starts hstarts
        have hpc : p.isBare Bracket.paren.closer = false := Bracket.isBare_closer_of_opener hopener
        have hbefore := hinner.1 before (List.prefix_append _ _)
        have hall := hinner.2
        rw [Bracket.closes_append, Bracket.opens_append, Bracket.closes_cons, Bracket.closes_cons,
          Bracket.opens_cons, Bracket.opens_cons, ho, hoc, hopener, hpc] at hall
        simp only [if_true, Bool.false_eq_true, if_false] at hall
        omega

/-- Nor is the substitution that the group belongs to. -/
theorem openSubstitution_closed (hstarts : startsSubstitution o p = true)
    (hinner : Bracket.paren.Balanced inner) (hc : c.isBare Bracket.paren.closer = true) :
    OpenSubstitution (o :: p :: (inner ++ c :: behind)) ↔ OpenSubstitution behind := by
  have hopener := isBare_opener_of_starts hstarts
  rw [openSubstitution_cons, openSubstitution_cons, openSubstitution_append_closed hinner hc,
    or_iff_right, or_iff_right]
  · rintro ⟨q, inside, -, hq, -⟩
    rw [(not_paren_of_starts hq).1] at hopener
    cases hopener
  · rintro ⟨q, inside, heq, -, hwithin⟩
    obtain ⟨rfl, rfl⟩ := List.cons.inj heq
    exact not_within_append (Nat.le_of_eq hinner.2.symm) hc behind hwithin

end Front

/-! ## The pass -/

section Pass

variable {line : Text} {d : Token} {A B : List Token}

theorem processSubstitutionExtent_cons (o p : Token) (ts : List Token) :
    Fusion.processSubstitution.extent o (p :: ts) =
      if startsSubstitution o p then
        groupLength Bracket.paren.opener Bracket.paren.closer 0 (p :: ts)
      else 0 := rfl

/-- The pass goes over tokens until the one that starts at a place. -/
theorem exists_start_cons {t : Token} {ts : List Token} {n : Nat} (hlt : t.start < n) :
    (∃ u ∈ Fusion.processSubstitution.apply line (t :: ts), u.start = n) ↔
      ∃ u ∈ Fusion.processSubstitution.apply line
        (ts.drop (Fusion.processSubstitution.extent t ts)), u.start = n := by
  rw [Fusion.apply, coalesce_zero_cons]
  constructor
  · rintro ⟨u, hu, hstart⟩
    rcases List.mem_cons.mp hu with rfl | hu
    · rw [glue_start] at hstart
      omega
    · exact ⟨u, hu, hstart⟩
  · rintro ⟨u, hu, hstart⟩
    exact ⟨u, List.mem_cons_of_mem _ hu, hstart⟩

/-- A closed substitution is glued together, and nothing else with it. -/
theorem drop_extent_of_closed {o p c : Token} {inner rest : List Token}
    (hstarts : startsSubstitution o p = true) (hinner : Bracket.paren.Balanced inner)
    (hc : c.isBare Bracket.paren.closer = true) :
    (p :: (inner ++ c :: rest)).drop
      (Fusion.processSubstitution.extent o (p :: (inner ++ c :: rest))) = rest := by
  have hsplit : p :: (inner ++ c :: rest) = p :: (inner ++ [c]) ++ rest := by simp
  have hgroup := Bracket.groupLength_of_group
    (Bracket.Group.closed (isBare_opener_of_starts hstarts) hinner hc rest)
  rw [processSubstitutionExtent_cons, if_pos hstarts, hsplit, hgroup, List.drop_left]

/-- A substitution that is open before a token takes that token in. -/
theorem drop_extent_of_within {o p : Token} (hstarts : startsSubstitution o p = true)
    (hwithin : Bracket.paren.Within 0 A) :
    (p :: (A ++ d :: B)).drop (Fusion.processSubstitution.extent o (p :: (A ++ d :: B))) <:+ B := by
  rw [processSubstitutionExtent_cons, if_pos hstarts, groupLength,
    if_pos (isBare_opener_of_starts hstarts), Bracket.groupLength_within hwithin (by omega)]
  have hpos : 0 < groupLength Bracket.paren.opener Bracket.paren.closer
      (0 + 1 + Bracket.paren.opens A - Bracket.paren.closes A) (d :: B) := by
    rw [groupLength]
    split
    · omega
    · split
      · split <;> omega
      · omega
  obtain ⟨k, hk⟩ := Nat.exists_eq_succ_of_ne_zero (Nat.ne_of_gt hpos)
  have hsplit : p :: (A ++ d :: B) = p :: (A ++ [d]) ++ B := by simp
  have hlength : A.length + (k + 1) + 1 = (p :: (A ++ [d])).length + k := by simp; omega
  rw [hk, Nat.succ_eq_add_one, hlength, hsplit, ← List.drop_drop, List.drop_left]
  exact List.drop_suffix k B

/-- A token is still the start of one behind the pass exactly if no substitution is open before
it. -/
theorem exists_start_iff_not_openSubstitution (horder : InOrder (A ++ d :: B))
    (hd : d.isBare "(" = false) :
    (∃ t ∈ Fusion.processSubstitution.apply line (A ++ d :: B), t.start = d.start) ↔
      ¬OpenSubstitution A := by
  induction hn : A.length using Nat.strongRecOn generalizing A with
  | ind n ih =>
    cases A with
    | nil =>
      refine iff_of_true ⟨glue line d (B.take (Fusion.processSubstitution.extent d B)), ?_,
        glue_start ..⟩ not_openSubstitution_nil
      rw [Fusion.apply, List.nil_append, coalesce_zero_cons]
      exact List.mem_cons_self
    | cons t A =>
      have hlt : t.start < d.start := by
        have hle := horder.append t List.mem_cons_self d List.mem_cons_self
        have hpos := horder.1 t List.mem_cons_self
        omega
      have hrest : InOrder (A ++ d :: B) := horder.sublist (List.sublist_cons_self _ _)
      rw [List.cons_append, exists_start_cons hlt]
      cases A with
      | nil =>
        have hnot : startsSubstitution t d = false := by
          rw [startsSubstitution, hd, Bool.and_false, Bool.false_and]
        rw [List.nil_append, processSubstitutionExtent_cons, hnot, if_neg Bool.false_ne_true,
          List.drop_zero]
        refine (ih 0 (by simp [← hn]) hrest rfl).trans (not_congr ?_)
        rw [openSubstitution_cons]
        simp
      | cons p A =>
        rw [List.cons_append]
        cases hstarts : startsSubstitution t p with
        | false =>
          rw [processSubstitutionExtent_cons, hstarts, if_neg Bool.false_ne_true, List.drop_zero,
            ← List.cons_append]
          refine (ih _ (by simp [← hn]) hrest rfl).trans (not_congr ?_)
          rw [openSubstitution_cons (o := t)]
          simp [hstarts]
        | true =>
          rcases Bracket.exists_closing_or_within (k := .paren) 0 A with
            ⟨inner, c, behind, rfl, hwithin, hcount, hc⟩ | hwithin
          · have hinner : Bracket.paren.Balanced inner := ⟨hwithin, by omega⟩
            have hbehind : InOrder (behind ++ d :: B) := by
              refine hrest.sublist ((List.suffix_append (p :: (inner ++ [c])) _).sublist.trans ?_)
              simp
            rw [List.append_assoc, List.cons_append, drop_extent_of_closed hstarts hinner hc]
            refine (ih behind.length (by simp [← hn]; omega) hbehind rfl).trans (not_congr ?_)
            exact (openSubstitution_closed hstarts hinner hc).symm
          · refine iff_of_false ?_ (not_not.mpr ⟨[], t, p, A, rfl, hstarts, hwithin⟩)
            rintro ⟨u, hu, hstart⟩
            obtain ⟨⟨v, hv, hsame⟩, -⟩ := exists_of_mem_coalesce hu
            have hmem : v ∈ B := (drop_extent_of_within hstarts hwithin).subset hv
            have hdB : InOrder (d :: B) := hrest.sublist (List.sublist_append_right (p :: A) _)
            have hle := (List.pairwise_cons.mp hdB.2).1 v hmem
            have hpos := hdB.1 d List.mem_cons_self
            omega

end Pass

/-! ## The tokens that count -/

/-- Whether a token counts for process substitutions. -/
def Token.isMark (t : Token) : Bool :=
  t.isBare "<" || t.isBare ">" || t.isBare "(" || t.isBare ")"

theorem Token.isMark_of_isBare {t : Token} {v : Text} (h : t.isBare v = true)
    (hv : v ∈ [['<'], ['>'], ['('], [')']]) : t.isMark = true := by
  simp only [List.mem_cons, List.not_mem_nil, or_false] at hv
  unfold isMark
  rcases hv with rfl | rfl | rfl | rfl
  · rw [show t.isBare "<" = true from h]; rfl
  · rw [show t.isBare ">" = true from h]; simp
  · rw [show t.isBare "(" = true from h]; simp
  · rw [show t.isBare ")" = true from h]; simp

theorem within_filter_isMark {e : Nat} {ts : List Token} :
    Bracket.paren.Within e (ts.filter Token.isMark) ↔ Bracket.paren.Within e ts := by
  induction ts generalizing e with
  | nil => rfl
  | cons t ts ih =>
    cases hmark : t.isMark with
    | true =>
      rw [List.filter_cons_of_pos hmark, Bracket.within_cons_iff, Bracket.within_cons_iff]
      simp only [ih]
    | false =>
      have hopener : ¬t.isBare Bracket.paren.opener = true := fun h => by
        rw [Token.isMark_of_isBare h (by decide)] at hmark
        cases hmark
      have hcloser : ¬t.isBare Bracket.paren.closer = true := fun h => by
        rw [Token.isMark_of_isBare h (by decide)] at hmark
        cases hmark
      rw [List.filter_cons_of_neg (by simp [hmark]), Bracket.within_cons_iff, if_neg hopener,
        if_neg hcloser, ih]

/-- Whether a substitution is open can be seen from the tokens that count. -/
theorem openSubstitution_filter {ts : List Token} (horder : InOrder ts) :
    OpenSubstitution (ts.filter Token.isMark) ↔ OpenSubstitution ts := by
  constructor
  · rintro ⟨before, o, p, inside, h, hstarts, hwithin⟩
    obtain ⟨front, rest, rfl, -, hrest⟩ := List.filter_eq_append_iff.mp h
    obtain ⟨gap, rest, rfl, -, -, hrest⟩ := List.filter_eq_cons_iff.mp hrest
    obtain ⟨gap', rest, rfl, -, -, rfl⟩ := List.filter_eq_cons_iff.mp hrest
    -- The operator touches the parenthesis, so no token stands between them.
    have hnil : gap' = [] := by
      refine List.eq_nil_iff_forall_not_mem.mpr fun u hu => ?_
      have htouches : o.stop = p.start := by
        simp only [startsSubstitution, Bool.and_eq_true, Token.touches, beq_iff_eq] at hstarts
        exact hstarts.2
      have hord : InOrder (o :: (gap' ++ p :: rest)) :=
        horder.sublist ((List.sublist_append_right gap _).trans (List.sublist_append_right front _))
      have hafter := (List.pairwise_cons.mp hord.2).1 u (List.mem_append_left _ hu)
      have hord' : InOrder (gap' ++ p :: rest) := hord.sublist (List.sublist_cons_self _ _)
      have hbefore := hord'.append u hu p List.mem_cons_self
      have hpos := hord'.1 u (List.mem_append_left _ hu)
      omega
    rw [hnil]
    exact ⟨front ++ gap, o, p, rest, by simp, hstarts, within_filter_isMark.mp hwithin⟩
  · rintro ⟨before, o, p, inside, rfl, hstarts, hwithin⟩
    have hp : p.isMark = true :=
      Token.isMark_of_isBare (isBare_opener_of_starts hstarts) (by decide)
    have ho : o.isMark = true := by
      simp only [startsSubstitution, Bool.and_eq_true, Bool.or_eq_true] at hstarts
      rcases hstarts.1.1 with h | h <;> exact Token.isMark_of_isBare h (by decide)
    refine ⟨before.filter Token.isMark, o, p, inside.filter Token.isMark, ?_, hstarts,
      within_filter_isMark.mpr hwithin⟩
    rw [List.filter_append, List.filter_cons_of_pos ho, List.filter_cons_of_pos hp]

end CrossShell
