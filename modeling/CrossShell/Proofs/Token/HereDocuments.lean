import CrossShell.Proofs.Token.Coverage
import CrossShell.Proofs.Token.Glued

/-!
# Here-documents that are seen

A here-document is `<<` and the word behind it. The passes glue the two together; the token that
they make starts with `<<`, and this is how a here-document is told from other tokens. It is missed
if it is glued to something that stands before it: to a process substitution that is open there, or
to a redirection that takes it for its target.

* `HereDocument`: a here-document among the tokens of a line.
* `HereDocument.Seen`: a token starts with it when all passes are done.
* `exists_isHeredoc_iff`: the tokens that read as here-documents are those that are seen.
* `HereDocument.not_seen_of_inSubstitution`, `HereDocument.seen_or_missed`: which are.
-/

namespace CrossShell

/-- The tokens of a line with its expansions glued together. -/
def expanded (line : Text) : List Token :=
  fuseWith [.commandSubstitution, .braceExpansion] line (tokenize line)

/-- Whether tokens begin with a word: one that is no operator, or the braces of `{}`. -/
def beginsWord : List Token → Bool
  | [] => false
  | t :: ts => !t.isOperator || 0 < Fusion.emptyBraces.extent t ts

/-- A here-document among tokens. -/
structure HereDocument (ts : List Token) where
  /-- The tokens before it. -/
  front : List Token
  /-- The token `<<`. -/
  operator : Token
  /-- Its delimiter and all tokens behind that. -/
  behind : List Token
  split : ts = front ++ operator :: behind
  isBare_operator : operator.isBare "<<" = true
  beginsWord_behind : beginsWord behind = true

/-! ## Tokens that read as here-documents -/

namespace Token

theorem isHeredoc_iff {t : Token} :
    t.isHeredoc = true ↔ t.quote = none ∧ ∃ m, m ≠ [] ∧ t.value = '<' :: '<' :: m := by
  have hsize (m : Text) : 2 < Text.size ('<' :: '<' :: m) ↔ m ≠ [] := by
    have hangle : '<'.utf8Size = 1 := by decide
    rw [Text.size_cons, Text.size_cons, hangle]
    constructor
    · rintro h rfl
      rw [Text.size_nil] at h
      omega
    · intro h
      have hne : Text.size m ≠ 0 := fun hzero => h (Text.eq_nil_of_size hzero)
      omega
  rw [isHeredoc, Bool.and_eq_true, Bool.and_eq_true, Option.isNone_iff_eq_none, decide_eq_true_eq,
    List.isPrefixOf_iff_prefix, and_assoc]
  refine and_congr_right fun _ => ⟨?_, ?_⟩
  · rintro ⟨hlt, m, hm⟩
    have hvalue : t.value = '<' :: '<' :: m := hm.symm
    rw [hvalue] at hlt
    exact ⟨m, (hsize m).mp hlt, hvalue⟩
  · rintro ⟨m, hne, hvalue⟩
    rw [hvalue]
    exact ⟨(hsize m).mpr hne, m, rfl⟩

theorem isBare_of_isHeredoc {t : Token} (h : t.isHeredoc = true) {v : Text} (hv : v.length ≤ 2) :
    t.isBare v = false := by
  obtain ⟨-, m, hne, hvalue⟩ := isHeredoc_iff.mp h
  refine Bool.eq_false_iff.mpr fun hbare => ?_
  rw [isBare, Bool.and_eq_true, beq_iff_eq, hvalue] at hbare
  have hlength := congrArg List.length hbare.2
  have hpos := List.length_pos_iff.mpr hne
  simp only [List.length_cons] at hlength
  omega

theorem isOperator_of_isHeredoc {t : Token} (h : t.isHeredoc = true) : t.isOperator = false := by
  have hshort : ∀ op ∈ operators, op.length ≤ 2 := by decide +kernel
  refine Bool.eq_false_iff.mpr fun hop => ?_
  rw [isOperator, Bool.and_eq_true, List.contains_iff_mem] at hop
  have hbare : t.isBare t.value = true := by rw [isBare, hop.1, beq_self_eq_true]; rfl
  rw [isBare_of_isHeredoc h (hshort _ hop.2)] at hbare
  cases hbare

theorem isRedirectOperator_of_isHeredoc {t : Token} (h : t.isHeredoc = true) :
    t.isRedirectOperator = false := by
  rw [isRedirectOperator, isBare_of_isHeredoc h (by decide), isBare_of_isHeredoc h (by decide),
    isBare_of_isHeredoc h (by decide)]
  rfl

theorem isDescriptor_of_isHeredoc {t : Token} (h : t.isHeredoc = true) :
    t.isDescriptor = false := by
  obtain ⟨-, m, -, hvalue⟩ := isHeredoc_iff.mp h
  rw [isDescriptor, hvalue]
  simp

/-- A descriptor does not start with an angle. -/
theorem append_ne_of_isDescriptor {t : Token} (h : t.isDescriptor = true) (m v : Text) :
    t.value ++ m ≠ '<' :: v := by
  simp only [isDescriptor, Bool.and_eq_true, Bool.or_eq_true, beq_iff_eq, Bool.not_eq_true',
    List.isEmpty_eq_false_iff, List.all_eq_true] at h
  intro heq
  rcases h.2 with hamp | ⟨hne, hdigits⟩
  · rw [hamp] at heq
    simp at heq
  · obtain ⟨c, cs, hvalue⟩ := List.exists_cons_of_ne_nil hne
    rw [hvalue] at heq hdigits
    obtain ⟨rfl, -⟩ := List.cons.inj heq
    exact absurd (hdigits '<' List.mem_cons_self) (by decide)

end Token

/-- Reading makes no token that reads as a here-document. -/
theorem not_isHeredoc_of_mem_tokenize {line : Text} {t : Token} (h : t ∈ tokenize line) :
    t.isHeredoc = false := by
  obtain ⟨pos, c, cs, hgap, rfl⟩ := mem_tokenizeFrom_cases h
  refine Bool.eq_false_iff.mpr fun hdoc => ?_
  obtain ⟨hquote, m, -, hvalue⟩ := Token.isHeredoc_iff.mp hdoc
  have htake : (c :: cs).take (lexemeLength c cs) = '<' :: '<' :: m := hvalue
  obtain ⟨rest, hrest⟩ := lexeme_value pos c cs
  obtain rfl : c = '<' := (List.cons.inj (hrest.symm.trans hvalue)).1
  rcases lexemeLength_cases hgap cs with
    ⟨q, hq, -⟩ | ⟨-, hform⟩ | ⟨hq, hform⟩ | ⟨hamp, -⟩ | ⟨hstart, -⟩
  · cases hq
  · rw [htake] at hform
    rcases hform with ⟨c, -, hc | hc⟩ | hc | hc <;> simp at hc
  · have hoperator : (lexeme pos '<' cs).isOperator = true := by
      rw [Token.isOperator, Bool.and_eq_true, List.contains_iff_mem]
      exact ⟨rfl, hform⟩
    rw [Token.isOperator_of_isHeredoc hdoc] at hoperator
    cases hoperator
  · simp at hamp
  · simp [isOperatorStart] at hstart

section Passes

variable {line : Text} {ts : List Token} {t : Token}

/-- The first token of a unit of several that reads as a here-document. -/
theorem exists_of_isHeredoc_glue {more : List Token} (h : Sliced line (t :: more)) (hne : more ≠ [])
    (hdoc : (glue line t more).isHeredoc = true) :
    ∃ m v, m ≠ [] ∧ v ≠ [] ∧ t.value ++ m = '<' :: '<' :: v := by
  obtain ⟨m, hm, hvalue⟩ := h.exists_glue_value hne
  obtain ⟨-, v, hv, hdoc⟩ := Token.isHeredoc_iff.mp hdoc
  exact ⟨m, v, hm, hv, hvalue.symm.trans hdoc⟩

theorem isHeredoc_of_getLast {m v : Text} (hquote : t.quote = none)
    (hlast : t.value.getLast? = some '$') (h : t.value ++ m = '<' :: '<' :: v) :
    t.isHeredoc = true := by
  rw [Token.isHeredoc_iff]
  refine ⟨hquote, ?_⟩
  rcases hvalue : t.value with _ | ⟨a, _ | ⟨b, rest⟩⟩ <;> rw [hvalue] at hlast h
  · cases hlast
  · obtain ⟨rfl, -⟩ := List.cons.inj h
    simp at hlast
  · obtain ⟨rfl, htail⟩ := List.cons.inj h
    obtain ⟨rfl, -⟩ := List.cons.inj htail
    refine ⟨rest, ?_, rfl⟩
    rintro rfl
    simp at hlast

/-- A unit that reads as a here-document starts with a token that does, unless the pass for
here-documents made it. -/
theorem isHeredoc_of_glue {pass : Fusion} (hpass : pass ≠ .heredoc) {us : List Token}
    (h : Sliced line (t :: us.take (pass.extent t us))) (hpos : 0 < pass.extent t us)
    (hdoc : (glue line t (us.take (pass.extent t us))).isHeredoc = true) : t.isHeredoc = true := by
  have hdollar {opener closer : Text}
      (hextent : pass.extent = Fusion.dollarGroupExtent opener closer) : t.isHeredoc = true := by
    rw [hextent] at h hpos hdoc
    obtain ⟨hquote, hlast, hne⟩ := Fusion.unit_dollarGroup hpos
    obtain ⟨m, v, -, -, hvalue⟩ := exists_of_isHeredoc_glue h (by simp [hne]; omega) hdoc
    exact isHeredoc_of_getLast hquote hlast hvalue
  cases pass with
  | commandSubstitution => exact hdollar rfl
  | braceExpansion => exact hdollar rfl
  | heredoc => exact absurd rfl hpass
  | emptyBraces =>
    obtain ⟨m, -, hglue⟩ := Fusion.glue_emptyBraces h hpos
    obtain ⟨-, v, -, hvalue⟩ := Token.isHeredoc_iff.mp hdoc
    simp [hglue] at hvalue
  | processSubstitution =>
    obtain ⟨c, m, hglue⟩ := Fusion.glue_processSubstitution h hpos
    obtain ⟨-, v, -, hvalue⟩ := Token.isHeredoc_iff.mp hdoc
    simp [hglue] at hvalue
  | descriptorRedirection =>
    rcases Fusion.unit_descriptorRedirection hpos with
      hdescriptor | ⟨hredirect, c, rest, rfl, hc, htouch⟩
    · have hne : us ≠ [] := by
        rintro rfl
        exact absurd hpos (Nat.lt_irrefl 0)
      obtain ⟨m, v, -, -, hvalue⟩ := exists_of_isHeredoc_glue h (by simp [hne]; omega) hdoc
      exact absurd hvalue (Token.append_ne_of_isDescriptor hdescriptor m _)
    · rw [take_eq_cons hpos] at h hdoc
      obtain ⟨m, hglue⟩ := h.exists_glue_value_of_touches htouch
      obtain ⟨-, v, -, hvalue⟩ := Token.isHeredoc_iff.mp hdoc
      rw [hglue, (Token.eq_of_isBare hc).2] at hvalue
      have hmem := (Token.eq_of_isRedirectOperator hredirect).2
      simp only [List.mem_cons, List.not_mem_nil, or_false] at hmem
      rcases hmem with ht | ht | ht <;> rw [ht] at hvalue <;> simp at hvalue

/-- The other passes make no new tokens that read as here-documents. -/
theorem exists_isHeredoc_of_mem_apply {pass : Fusion} (hpass : pass ≠ .heredoc)
    (h : Sliced line ts) (ht : t ∈ pass.apply line ts) (hdoc : t.isHeredoc = true) :
    ∃ u ∈ ts, u.isHeredoc = true ∧ u.start = t.start := by
  rcases Fusion.mem_apply_cases ht with ht | ⟨u, us, hsuffix, hpos, rfl⟩
  · exact ⟨t, ht, hdoc, rfl⟩
  · exact ⟨u, hsuffix.subset List.mem_cons_self,
      isHeredoc_of_glue hpass (h.unit hsuffix _) hpos hdoc, (glue_start ..).symm⟩

end Passes

/-! ## The passes that put here-documents together -/

section Joining

variable {line : Text} {o : Token}

theorem adjacentLength_append_operator (ho : o.isOperator = true) (last : Token)
    (ts rest : List Token) : adjacentLength last (ts ++ o :: rest) = adjacentLength last ts := by
  induction ts generalizing last with
  | nil => simp [adjacentLength, ho]
  | cons t ts ih => rw [List.cons_append, adjacentLength, adjacentLength, ih]

/-- No unit of `{}` reaches over an operator that closes no brace. -/
theorem emptyBraces_append (ho : o.isOperator = true) (hclose : o.isBare "\x7d" = false)
    (front rest : List Token) : Fusion.emptyBraces.apply line (front ++ o :: rest) =
      Fusion.emptyBraces.apply line front ++ Fusion.emptyBraces.apply line (o :: rest) := by
  refine coalesce_append_of_ends fun t us _ => ?_
  cases us with
  | nil =>
    refine ⟨?_, Nat.le_refl 0⟩
    show Fusion.emptyBracesExtent t (o :: rest) = 0
    rw [Fusion.emptyBracesExtent, hclose, Bool.and_false, Bool.false_and]
    rfl
  | cons c us =>
    have hadjacent : withAdjacent t (c :: us ++ o :: rest) 1 = withAdjacent t (c :: us) 1 :=
      congrArg (1 + ·) (adjacentLength_append_operator ho c us rest)
    have hle : withAdjacent t (c :: us) 1 ≤ us.length + 1 := by
      have := adjacentLength_le c us
      show 1 + adjacentLength c us ≤ us.length + 1
      omega
    rw [Fusion.extent, List.cons_append, Fusion.emptyBracesExtent, Fusion.emptyBracesExtent,
      ← List.cons_append, hadjacent]
    refine ⟨rfl, ?_⟩
    split
    · exact hle
    · exact Nat.zero_le _

/-- No here-document has an operator for its delimiter. -/
theorem heredoc_append (ho : o.isOperator = true) (front rest : List Token) :
    Fusion.heredoc.apply line (front ++ o :: rest) =
      Fusion.heredoc.apply line front ++ Fusion.heredoc.apply line (o :: rest) := by
  refine coalesce_append_of_ends fun t us _ => ?_
  cases us with
  | nil =>
    refine ⟨?_, Nat.le_refl 0⟩
    show Fusion.heredocExtent t (o :: rest) = 0
    rw [Fusion.heredocExtent, ho, Bool.not_true, Bool.and_false]
    rfl
  | cons w us =>
    refine ⟨rfl, ?_⟩
    rw [Fusion.extent, Fusion.heredocExtent]
    split <;> simp

theorem isOperator_of_isBare_heredoc (h : o.isBare "<<" = true) : o.isOperator = true := by
  obtain ⟨hquote, hvalue⟩ := Token.eq_of_isBare h
  rw [Token.isOperator, hquote, hvalue]
  decide +kernel

/-- `<<` is neither of the braces. -/
theorem not_brace_of_isBare_heredoc (h : o.isBare "<<" = true) :
    o.isBare "\x7b" = false ∧ o.isBare "\x7d" = false :=
  ⟨Token.isBare_of_ne h (by decide), Token.isBare_of_ne h (by decide)⟩

theorem emptyBraces_operator (h : o.isBare "<<" = true) (front rest : List Token) :
    Fusion.emptyBraces.apply line (front ++ o :: rest) =
      Fusion.emptyBraces.apply line front ++ o :: Fusion.emptyBraces.apply line rest := by
  obtain ⟨hopen, hclose⟩ := not_brace_of_isBare_heredoc h
  have hzero : Fusion.emptyBraces.extent o rest = 0 := by
    cases rest with
    | nil => rfl
    | cons c rest =>
      rw [Fusion.extent, Fusion.emptyBracesExtent, hopen, Bool.false_and, Bool.false_and]
      rfl
  rw [emptyBraces_append (isOperator_of_isBare_heredoc h) hclose, Fusion.apply, Fusion.apply,
    coalesce_cons_of_extent hzero]
  rfl

/-- Tokens begin with a word exactly if what the pass for `{}` makes of them does. -/
theorem beginsWord_iff {ts : List Token} (h : Sliced line ts) : beginsWord ts = true ↔
    ∃ w rest, Fusion.emptyBraces.apply line ts = w :: rest ∧ w.isOperator = false := by
  cases ts with
  | nil => simp [beginsWord, Fusion.apply, coalesce]
  | cons t ts =>
    rw [Fusion.apply, coalesce_zero_cons, beginsWord, Bool.or_eq_true, Bool.not_eq_true',
      decide_eq_true_eq]
    rcases Nat.eq_zero_or_pos (Fusion.emptyBraces.extent t ts) with hzero | hpos
    · rw [hzero]
      simp [glue]
    · refine iff_of_true (.inr hpos) ⟨_, _, rfl, ?_⟩
      obtain ⟨m, hm, hvalue⟩ := Fusion.glue_emptyBraces (h.unit List.suffix_rfl _) hpos
      have hlone : ∀ op ∈ operators, op.head? = some '{' → op.length ≤ 1 := by decide +kernel
      refine Bool.eq_false_iff.mpr fun hop => ?_
      rw [Token.isOperator, Bool.and_eq_true, List.contains_iff_mem, hvalue] at hop
      have hlength := hlone _ hop.2 rfl
      have hmpos := List.length_pos_iff.mpr hm
      rw [List.length_cons] at hlength
      omega

namespace HereDocument

variable {ts : List Token} (d : HereDocument ts)

/-- A here-document is put together, and what stands before it is not changed by that. -/
theorem exists_joined (h : Sliced line ts) : ∃ t rest,
    Fusion.heredoc.apply line (Fusion.emptyBraces.apply line ts) =
      Fusion.heredoc.apply line (Fusion.emptyBraces.apply line d.front) ++ t :: rest ∧
    t.isHeredoc = true ∧ t.start = d.operator.start := by
  have hbehind : Sliced line d.behind := by
    have hsub := (List.sublist_cons_self d.operator d.behind).trans
      (List.sublist_append_right d.front _)
    exact h.sublist (hsub.trans (by rw [← d.split]))
  obtain ⟨w, rest, hword, hw⟩ := (beginsWord_iff hbehind).mp d.beginsWord_behind
  have hsplit : Fusion.emptyBraces.apply line ts =
      Fusion.emptyBraces.apply line d.front ++ d.operator :: w :: rest := by
    conv => lhs; rw [d.split, emptyBraces_operator d.isBare_operator, hword]
  have hunit : Fusion.heredoc.extent d.operator (w :: rest) = 1 := by
    rw [Fusion.extent, Fusion.heredocExtent, d.isBare_operator, hw]
    rfl
  have hjoined : Fusion.heredoc.apply line (d.operator :: w :: rest) =
      glue line d.operator [w] :: Fusion.heredoc.apply line rest := by
    rw [Fusion.apply, coalesce_zero_cons, hunit]
    rfl
  refine ⟨glue line d.operator [w], Fusion.heredoc.apply line rest, ?_, ?_, glue_start ..⟩
  · rw [hsplit, heredoc_append (isOperator_of_isBare_heredoc d.isBare_operator), hjoined]
  · have hpair : Sliced line [d.operator, w] := by
      refine (h.apply .emptyBraces).sublist ?_
      rw [hsplit]
      exact (List.sublist_append_left [d.operator, w] rest).trans (List.sublist_append_right _ _)
    obtain ⟨m, hm, hvalue⟩ := hpair.exists_glue_value (List.cons_ne_nil _ _)
    have hoperator := (Token.eq_of_isBare d.isBare_operator).2
    exact Token.isHeredoc_iff.mpr ⟨rfl, m, hm, by rw [hvalue, hoperator]; rfl⟩

end HereDocument

/-- The pass for `{}` makes only tokens that start with a brace. -/
theorem mem_of_mem_emptyBraces {ts : List Token} (h : Sliced line ts) {t : Token}
    (ht : t ∈ Fusion.emptyBraces.apply line ts) (hhead : t.value.head? ≠ some '{') : t ∈ ts := by
  rcases Fusion.mem_apply_cases ht with ht | ⟨u, us, hsuffix, hpos, rfl⟩
  · exact ht
  · obtain ⟨m, -, hvalue⟩ := Fusion.glue_emptyBraces (h.unit hsuffix _) hpos
    rw [hvalue] at hhead
    exact absurd rfl hhead

/-- In tokens that stand in order, each stands once. -/
theorem InOrder.append_cons_inj {t : Token} {A A' B B' : List Token} (h : InOrder (A ++ t :: B))
    (heq : A ++ t :: B = A' ++ t :: B') : B = B' := by
  have hpos := h.1 t (List.mem_append_right _ List.mem_cons_self)
  refine ((List.append_cons_inj_of_notMem (fun hmem => ?_) fun hmem => ?_).mp heq).2.2
  · have := h.append t hmem t List.mem_cons_self
    omega
  · have hbehind : InOrder (t :: B) := h.sublist (List.sublist_append_right A _)
    have := (List.pairwise_cons.mp hbehind.2).1 t hmem
    omega

/-- Where no token reads as a here-document, those that do behind the two passes come from
here-documents. -/
theorem exists_hereDocument {ts : List Token} (h : Sliced line ts)
    (hnone : ∀ t ∈ ts, t.isHeredoc = false) {t : Token}
    (ht : t ∈ Fusion.heredoc.apply line (Fusion.emptyBraces.apply line ts))
    (hdoc : t.isHeredoc = true) : ∃ d : HereDocument ts, d.operator.start = t.start := by
  rcases Fusion.mem_apply_cases ht with ht | ⟨u, us, hsuffix, hpos, rfl⟩
  · obtain ⟨v, hv, hvdoc, -⟩ := exists_isHeredoc_of_mem_apply (by decide) h ht hdoc
    rw [hnone v hv] at hvdoc
    cases hvdoc
  · obtain ⟨hbare, w, rest, rfl, hw, -⟩ := Fusion.unit_heredoc hpos
    have hmem : u ∈ ts := by
      refine mem_of_mem_emptyBraces h (hsuffix.subset List.mem_cons_self) ?_
      rw [(Token.eq_of_isBare hbare).2]
      decide
    obtain ⟨front, behind, rfl⟩ := List.append_of_mem hmem
    obtain ⟨before, hbefore⟩ := hsuffix
    -- The pass for `{}` leaves `<<` where it is, so its word comes from the tokens behind it.
    have hword : Fusion.emptyBraces.apply line behind = w :: rest := by
      have horder := (h.apply .emptyBraces).1
      rw [emptyBraces_operator hbare] at hbefore horder
      exact horder.append_cons_inj hbefore.symm
    have hbehind : Sliced line behind :=
      h.sublist ((List.sublist_cons_self u behind).trans (List.sublist_append_right front _))
    exact ⟨⟨front, u, behind, rfl, hbare, (beginsWord_iff hbehind).mpr ⟨w, rest, hword, hw⟩⟩,
      (glue_start ..).symm⟩

end Joining

/-! ## What counts for process substitutions stays -/

section Marks

variable {line : Text} {ts : List Token} {t : Token}

theorem Token.eq_of_isMark (h : t.isMark = true) :
    t.quote = none ∧ t.value ∈ [['<'], ['>'], ['('], [')']] := by
  simp only [isMark, isBare, Bool.or_eq_true, Bool.and_eq_true, Option.isNone_iff_eq_none,
    beq_iff_eq] at h
  rcases h with ((⟨hq, hv⟩ | ⟨hq, hv⟩) | ⟨hq, hv⟩) | ⟨hq, hv⟩ <;> exact ⟨hq, by rw [hv]; decide⟩

theorem Token.isMark_of_not_isOperator (h : t.isOperator = false) : t.isMark = false := by
  have hall : ∀ v ∈ [['<'], ['>'], ['('], [')']], operators.contains v = true := by decide +kernel
  refine Bool.eq_false_iff.mpr fun hmark => ?_
  obtain ⟨hquote, hvalue⟩ := eq_of_isMark hmark
  rw [isOperator, hquote, hall _ hvalue] at h
  cases h

theorem Token.isMark_of_value {v : Text} (hvalue : t.value = v)
    (hv : v.head? = some '{' ∨ v.head? = some '}' ∨ 2 ≤ v.length) : t.isMark = false := by
  have hnone : ∀ v ∈ [['<'], ['>'], ['('], [')']],
      ¬(v.head? = some '{' ∨ v.head? = some '}' ∨ 2 ≤ v.length) := by decide
  refine Bool.eq_false_iff.mpr fun hmark => ?_
  exact hnone _ (eq_of_isMark hmark).2 (hvalue ▸ hv)

theorem filter_isMark_emptyBraces (h : Sliced line ts) :
    (Fusion.emptyBraces.apply line ts).filter Token.isMark = ts.filter Token.isMark := by
  refine filter_coalesce fun t us hsuffix hpos => ?_
  obtain ⟨m, -, hvalue⟩ := Fusion.glue_emptyBraces (h.unit hsuffix _) hpos
  refine ⟨Token.isMark_of_value hvalue (.inl rfl), fun u hu => ?_⟩
  obtain ⟨hopen, c, more, rest, hclose, hmore, -, htake⟩ := Fusion.unit_emptyBraces hpos
  rw [htake] at hu
  rcases List.mem_cons.mp hu with rfl | hu
  · exact Token.isMark_of_value (Token.eq_of_isBare hopen).2 (.inl rfl)
  rcases List.mem_cons.mp hu with rfl | hu
  · exact Token.isMark_of_value (Token.eq_of_isBare hclose).2 (.inr (.inl rfl))
  · exact Token.isMark_of_not_isOperator (hmore u hu)

theorem filter_isMark_heredoc (h : Sliced line ts) :
    (Fusion.heredoc.apply line ts).filter Token.isMark = ts.filter Token.isMark := by
  refine filter_coalesce fun t us hsuffix hpos => ?_
  obtain ⟨m, -, hvalue⟩ := Fusion.glue_heredoc (h.unit hsuffix _) hpos
  refine ⟨Token.isMark_of_value hvalue (.inr (.inr (by simp))), fun u hu => ?_⟩
  obtain ⟨hbare, w, rest, rfl, hw, hone⟩ := Fusion.unit_heredoc hpos
  rw [hone] at hu
  rcases List.mem_cons.mp hu with rfl | hu
  · exact Token.isMark_of_value (Token.eq_of_isBare hbare).2 (.inr (.inr (by decide)))
  · rw [List.mem_singleton.mp hu]
    exact Token.isMark_of_not_isOperator hw

/-- The two passes neither open nor close process substitutions. -/
theorem openSubstitution_joined (h : Sliced line ts) :
    OpenSubstitution (Fusion.heredoc.apply line (Fusion.emptyBraces.apply line ts)) ↔
      OpenSubstitution ts := by
  have hbraces := h.apply .emptyBraces
  rw [← openSubstitution_filter (hbraces.apply .heredoc).1, filter_isMark_heredoc hbraces,
    filter_isMark_emptyBraces h, openSubstitution_filter h.1]

end Marks

/-! ## The passes behind -/

section Behind

variable {line : Text} {ts : List Token} {t u : Token}

/-- The passes behind glue nothing to a here-document. -/
theorem extent_of_isHeredoc {pass : Fusion}
    (hpass : pass = .processSubstitution ∨ pass = .descriptorRedirection)
    (hu : u.isHeredoc = true) (rest : List Token) : pass.extent u rest = 0 := by
  rcases Nat.eq_zero_or_pos (pass.extent u rest) with hzero | hpos
  · exact hzero
  rcases hpass with rfl | rfl
  · obtain ⟨p, rest, -, hstarts⟩ := Fusion.unit_processSubstitution hpos
    rw [startsSubstitution, Token.isBare_of_isHeredoc hu (by decide),
      Token.isBare_of_isHeredoc hu (by decide)] at hstarts
    cases hstarts
  · rcases Fusion.unit_descriptorRedirection hpos with hdescriptor | ⟨hredirect, -⟩
    · rw [Token.isDescriptor_of_isHeredoc hu] at hdescriptor
      cases hdescriptor
    · rw [Token.isRedirectOperator_of_isHeredoc hu] at hredirect
      cases hredirect

/-- A token to which a pass glues nothing stays, if something still starts where it does. -/
theorem mem_apply_of_start {pass : Fusion} (horder : InOrder ts) (hu : u ∈ ts)
    (hextent : ∀ rest, pass.extent u rest = 0)
    (hstart : ∃ t ∈ pass.apply line ts, t.start = u.start) : u ∈ pass.apply line ts := by
  have hpos := horder.1 u hu
  obtain ⟨front, rest, rfl⟩ := List.append_of_mem hu
  rcases Fusion.mem_apply_or_covered horder (hextent rest) line with hmem | ⟨s, hs, hlt, hle⟩
  · exact hmem
  · obtain ⟨t, ht, hsame⟩ := hstart
    have hord : InOrder (pass.apply line (front ++ u :: rest)) := inOrder_coalesce horder
    have htpos := hord.1 t ht
    rw [hord.eq_of_overlap hs ht (by omega) (by omega), hsame] at hlt
    exact absurd hlt (Nat.lt_irrefl _)

/-- What a redirection may end with, if a target touches it. -/
def Token.takesTarget (t : Token) : Bool := t.isRedirectOperator || t.isBare "&"

theorem startsTarget_cons {last d : Token} {rest : List Token}
    (h : Fusion.startsTarget last (d :: rest) = true) : last.touches d = true := by
  rw [Fusion.startsTarget, Bool.and_eq_true, Bool.and_eq_true] at h
  exact h.1.1

theorem startsDuplication_cons {last d : Token} {rest : List Token} (hd : d.isBare "&" = false) :
    Fusion.startsDuplication last (d :: rest) = false := by
  rw [Fusion.startsDuplication, hd, Bool.false_and]

/-- The target of a redirection touches what stands before it. -/
theorem exists_touches_of_targetExtent {last d : Token} (before : List Token) {rest : List Token}
    (hlast : last.isRedirectOperator = true) (hd : d.isBare "&" = false)
    (h : before.length < Fusion.targetExtent last (before ++ d :: rest)) :
    ∃ s ∈ last :: before, s.touches d = true ∧ s.takesTarget = true := by
  cases before with
  | nil =>
    refine ⟨last, List.mem_cons_self, ?_, by rw [Token.takesTarget, hlast]; rfl⟩
    rw [List.nil_append, Fusion.targetExtent, startsDuplication_cons hd] at h
    rw [if_neg Bool.false_ne_true] at h
    split at h
    next htarget => exact startsTarget_cons htarget
    next => exact absurd h (Nat.lt_irrefl 0)
  | cons c before =>
    rw [List.cons_append, Fusion.targetExtent] at h
    split at h
    next hdup =>
      rw [Fusion.startsDuplication, Bool.and_eq_true] at hdup
      refine ⟨c, List.mem_cons_of_mem _ List.mem_cons_self, ?_, by
        rw [Token.takesTarget, hdup.1, Bool.or_true]⟩
      simp only [List.length_cons] at h
      cases before with
      | nil =>
        split at h
        next htarget => exact startsTarget_cons htarget
        next => omega
      | cons e before =>
        simp only [List.length_cons] at h
        split at h <;> omega
    next =>
      simp only [List.length_cons] at h
      split at h <;> omega

/-- A token that a redirection takes for its target touches what stands before it. -/
theorem exists_touches_of_extent {d : Token} {before rest : List Token}
    (hop : d.isOperator = false) (hd : d.isBare "&" = false)
    (h : before.length < Fusion.descriptorRedirection.extent t (before ++ d :: rest)) :
    ∃ s ∈ t :: before, s.touches d = true ∧ s.takesTarget = true := by
  cases before with
  | nil =>
    have hredirect : d.isRedirectOperator = false := by
      refine Bool.eq_false_iff.mpr fun hredirect => ?_
      rw [Token.isOperator_of_isRedirectOperator hredirect] at hop
      cases hop
    rw [List.nil_append, Fusion.extent, Fusion.descriptorRedirectionExtent, hredirect, hd] at h
    simp at h
  | cons c before =>
    rw [List.cons_append, Fusion.extent, Fusion.descriptorRedirectionExtent] at h
    split at h
    next hdescriptor =>
      simp only [Bool.and_eq_true] at hdescriptor
      obtain ⟨s, hs, hresult⟩ := exists_touches_of_targetExtent before hdescriptor.1.2 hd
        (by simpa using h)
      exact ⟨s, List.mem_cons_of_mem _ hs, hresult⟩
    next =>
      split at h
      next hdup =>
        simp only [Bool.and_eq_true] at hdup
        exact exists_touches_of_targetExtent (c :: before) hdup.1.1 hd h
      next => exact absurd h (Nat.not_lt_zero _)

/-- A token that the last pass glues to what stands before it touches that. -/
theorem exists_touches_of_covered {d : Token} (horder : InOrder ts) (hmem : d ∈ ts)
    (hop : d.isOperator = false) (hd : d.isBare "&" = false)
    (ht : t ∈ Fusion.descriptorRedirection.apply line ts) (hlt : t.start < d.start)
    (hle : d.stop ≤ t.stop) : ∃ s ∈ ts, s.touches d = true ∧ s.takesTarget = true := by
  obtain ⟨u, before, rest, hsuffix, hlength⟩ := exists_unit_of_covered horder hmem ht hlt hle
  obtain ⟨s, hs, hresult⟩ := exists_touches_of_extent hop hd hlength
  refine ⟨s, hsuffix.subset ?_, hresult⟩
  rw [← List.cons_append]
  exact List.mem_append_left _ hs

theorem Token.value_of_takesTarget (h : t.takesTarget = true) :
    t.value ∈ [['>'], ['>', '>'], ['<'], ['&']] := by
  rw [takesTarget, Bool.or_eq_true] at h
  rcases h with hredirect | hamp
  · have hmem := (eq_of_isRedirectOperator hredirect).2
    simp only [List.mem_cons, List.not_mem_nil, or_false] at hmem ⊢
    tauto
  · rw [(eq_of_isBare hamp).2]
    decide

/-- The passes in front make no token that takes a target. -/
theorem mem_of_takesTarget (h : Sliced line ts)
    (ht : t ∈ Fusion.processSubstitution.apply line
      (Fusion.heredoc.apply line (Fusion.emptyBraces.apply line ts)))
    (htarget : t.takesTarget = true) : t ∈ ts := by
  have hvalue := Token.value_of_takesTarget htarget
  have hbraces := h.apply .emptyBraces
  have hdocs := hbraces.apply .heredoc
  rcases Fusion.mem_apply_cases ht with ht | ⟨u, us, hsuffix, hpos, rfl⟩
  · rcases Fusion.mem_apply_cases ht with ht | ⟨u, us, hsuffix, hpos, rfl⟩
    · have hhead : ∀ v ∈ [['>'], ['>', '>'], ['<'], ['&']], v.head? ≠ some '{' := by decide
      exact mem_of_mem_emptyBraces h ht (hhead _ hvalue)
    · obtain ⟨m, -, hglue⟩ := Fusion.glue_heredoc (hbraces.unit hsuffix _) hpos
      simp [hglue] at hvalue
  · obtain ⟨c, m, hglue⟩ := Fusion.glue_processSubstitution (hdocs.unit hsuffix _) hpos
    simp [hglue] at hvalue

end Behind

/-! ## Which here-documents are seen -/

theorem fused_eq (line : Text) : fused line = Fusion.descriptorRedirection.apply line
    (Fusion.processSubstitution.apply line
      (Fusion.heredoc.apply line (Fusion.emptyBraces.apply line (expanded line)))) := rfl

theorem sliced_expanded (line : Text) : Sliced line (expanded line) := sliced_fuseWith line _

/-- No token with its expansions reads as a here-document. -/
theorem not_isHeredoc_of_mem_expanded {line : Text} {t : Token} (h : t ∈ expanded line) :
    t.isHeredoc = false := by
  refine Bool.eq_false_iff.mpr fun hdoc => ?_
  have hslices := sliced_fuseWith line []
  obtain ⟨u, hu, hudoc, -⟩ := exists_isHeredoc_of_mem_apply
    (show Fusion.braceExpansion ≠ .heredoc by decide) (hslices.apply .commandSubstitution) h hdoc
  obtain ⟨v, hv, hvdoc, -⟩ := exists_isHeredoc_of_mem_apply (by decide) hslices hu hudoc
  rw [not_isHeredoc_of_mem_tokenize hv] at hvdoc
  cases hvdoc

namespace HereDocument

variable {line : Text} {ts : List Token}

/-- A process substitution is open before it. -/
def InSubstitution (d : HereDocument ts) : Prop := OpenSubstitution d.front

/-- A redirection that may take a target ends where it starts. -/
def Touched (d : HereDocument ts) : Prop :=
  ∃ t ∈ ts, t.stop = d.operator.start ∧ t.takesTarget = true

/-- Behind all passes, a token starts with it. -/
def Seen (d : HereDocument (expanded line)) : Prop := ∃ t ∈ fused line, t.start = d.operator.start

/-- It is in front of the last pass exactly if no process substitution is open before it. -/
theorem exists_start_iff_not_inSubstitution (d : HereDocument (expanded line)) :
    (∃ t ∈ Fusion.processSubstitution.apply line (Fusion.heredoc.apply line
        (Fusion.emptyBraces.apply line (expanded line))), t.start = d.operator.start) ↔
      ¬d.InSubstitution := by
  have hslices := sliced_expanded line
  have hfront : Sliced line d.front := by
    refine hslices.sublist ((List.sublist_append_left d.front (d.operator :: d.behind)).trans ?_)
    rw [← d.split]
  obtain ⟨t, rest, heq, hdoc, hstart⟩ := d.exists_joined hslices
  have horder := ((hslices.apply .emptyBraces).apply .heredoc).1
  rw [heq] at horder ⊢
  rw [← hstart, exists_start_iff_not_openSubstitution horder
    (Token.isBare_of_isHeredoc hdoc (by decide)), openSubstitution_joined hfront]
  rfl

/-- A here-document in a process substitution is missed. -/
theorem not_seen_of_inSubstitution {d : HereDocument (expanded line)} (h : d.InSubstitution) :
    ¬d.Seen := by
  rintro ⟨t, ht, hstart⟩
  rw [fused_eq] at ht
  obtain ⟨⟨u, hu, hsame⟩, -⟩ := exists_of_mem_coalesce ht
  exact d.exists_start_iff_not_inSubstitution.mp ⟨u, hu, hsame.trans hstart⟩ h

/-- Its token is there in front of the last pass, and stays if something still starts there. -/
theorem exists_mem_of_not_inSubstitution {d : HereDocument (expanded line)}
    (h : ¬d.InSubstitution) : ∃ t ∈ Fusion.processSubstitution.apply line
        (Fusion.heredoc.apply line (Fusion.emptyBraces.apply line (expanded line))),
      t.isHeredoc = true ∧ t.start = d.operator.start := by
  have hslices := sliced_expanded line
  obtain ⟨t, rest, heq, hdoc, hstart⟩ := d.exists_joined hslices
  have horder := ((hslices.apply .emptyBraces).apply .heredoc).1
  have hmem : t ∈ Fusion.heredoc.apply line (Fusion.emptyBraces.apply line (expanded line)) := by
    rw [heq]
    exact List.mem_append_right _ List.mem_cons_self
  refine ⟨t, mem_apply_of_start horder hmem (extent_of_isHeredoc (.inl rfl) hdoc) ?_, hdoc, hstart⟩
  rw [hstart]
  exact d.exists_start_iff_not_inSubstitution.mpr h

/-- Every other here-document is seen, unless a redirection touches it. -/
theorem seen_or_missed (d : HereDocument (expanded line)) :
    d.Seen ∨ d.InSubstitution ∨ d.Touched := by
  by_cases hin : d.InSubstitution
  · exact .inr (.inl hin)
  obtain ⟨t, ht, hdoc, hstart⟩ := exists_mem_of_not_inSubstitution hin
  have hslices := sliced_expanded line
  have hbehind := ((hslices.apply .emptyBraces).apply .heredoc).apply .processSubstitution
  obtain ⟨front, rest, heq⟩ := List.append_of_mem ht
  have horder := hbehind.1
  rw [heq] at horder
  rcases Fusion.mem_apply_or_covered horder (extent_of_isHeredoc (.inr rfl) hdoc rest) line with
    hmem | ⟨s, hs, hlt, hle⟩
  · refine .inl ⟨t, ?_, hstart⟩
    rw [fused_eq, heq]
    exact hmem
  · rw [← heq] at hs
    obtain ⟨u, hu, htouch, htarget⟩ := exists_touches_of_covered hbehind.1 ht
      (Token.isOperator_of_isHeredoc hdoc) (Token.isBare_of_isHeredoc hdoc (by decide)) hs hlt hle
    refine .inr (.inr ⟨u, mem_of_takesTarget hslices hu htarget, ?_, htarget⟩)
    rw [← hstart]
    exact beq_iff_eq.mp htouch

end HereDocument

/-- The tokens that read as here-documents when all passes are done are the here-documents that are
seen. -/
theorem exists_isHeredoc_iff (line : Text) : (∃ t ∈ fused line, t.isHeredoc = true) ↔
    ∃ d : HereDocument (expanded line), d.Seen := by
  have hslices := sliced_expanded line
  have hdocs := (hslices.apply .emptyBraces).apply .heredoc
  constructor
  · rintro ⟨t, ht, hdoc⟩
    rw [fused_eq] at ht
    obtain ⟨u, hu, hudoc, hustart⟩ := exists_isHeredoc_of_mem_apply (by decide)
      (hdocs.apply .processSubstitution) ht hdoc
    obtain ⟨v, hv, hvdoc, hvstart⟩ := exists_isHeredoc_of_mem_apply (by decide) hdocs hu hudoc
    obtain ⟨d, hd⟩ := exists_hereDocument hslices (fun _ => not_isHeredoc_of_mem_expanded) hv hvdoc
    exact ⟨d, t, ht, by rw [hd, hvstart, hustart]⟩
  · rintro ⟨d, hseen⟩
    have hin : ¬d.InSubstitution := fun hin => HereDocument.not_seen_of_inSubstitution hin hseen
    obtain ⟨t, ht, hdoc, hstart⟩ := HereDocument.exists_mem_of_not_inSubstitution hin
    refine ⟨t, ?_, hdoc⟩
    rw [fused_eq]
    refine mem_apply_of_start (hdocs.apply .processSubstitution).1 ht
      (extent_of_isHeredoc (.inr rfl) hdoc) ?_
    rw [hstart]
    exact hseen

end CrossShell
