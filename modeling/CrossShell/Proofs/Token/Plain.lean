import CrossShell.Token.Role
import CrossShell.Proofs.Token.Blocks

/-!
# Plain words

A plain word holds no gap, no operator, no quote, and nothing that protects another character. It is
read as one token, and no pass opens a group at it.

* `Lexes`: a text is read as one token in front of another text.
* `lexes_plain`: plain words are.
* `closed_of_single`: a text in which no group opens is closed.
-/

namespace CrossShell

/-! ## Reading one piece -/

/-- An unquoted token. -/
def bare (value : Text) (start : Nat) : Token := ⟨value, start, start + Text.size value, none⟩

/-- A text is read as one token in front of another text. -/
def Lexes (v r : Text) : Prop :=
  ∀ pos, tokenizeFrom pos 0 (v ++ r) = bare v pos :: tokenizeFrom (pos + Text.size v) 0 r

/-- A text before which every token ends. -/
def StartsApart (r : Text) : Prop := ∀ c ∈ r.head?, (isGap c || isOperatorStart c) = true

/-- A character of a plain word: no gap, no operator, no quote, and none that protects another. -/
def isPlain (c : Char) : Bool :=
  !(isGap c || isOperatorStart c || c ∈ ['\'', '"', '\\', '\x60'])

theorem isPlain_iff {c : Char} : isPlain c = true ↔
    isGap c = false ∧ isOperatorStart c = false ∧ c ≠ '\'' ∧ c ≠ '"' ∧ c ≠ '\\' ∧ c ≠ '\x60' := by
  simp [isPlain, and_assoc]

theorem quote_of_isPlain {c : Char} (h : isPlain c = true) : Quote.ofChar? c = none := by
  obtain ⟨-, -, hsingle, hdouble, -⟩ := isPlain_iff.mp h
  simp [Quote.ofChar?, hsingle, hdouble]

theorem lexes_of_lexemeLength {c : Char} {cs r : Text} (hg : isGap c = false)
    (hq : Quote.ofChar? c = none) (hl : lexemeLength c (cs ++ r) = (c :: cs).length) :
    Lexes (c :: cs) r := by
  intro pos
  have htake : (c :: (cs ++ r)).take (c :: cs).length = c :: cs := by simp
  rw [List.cons_append, tokenizeFrom_cons_of_not_isGap hg, hl, lexeme_eq hl hq, htake]
  simp [bare]

theorem wordLength_plain {p r : Text} (hp : ∀ c ∈ p, isPlain c = true) (hr : StartsApart r) :
    wordLength none (p ++ r) = p.length := by
  induction p with
  | nil =>
    cases r with
    | nil => rfl
    | cons c r => exact wordLength_of_ends (hr c rfl) r
  | cons c p ih =>
    obtain ⟨hgap, hop, -, -, hslash, -⟩ := isPlain_iff.mp (hp c List.mem_cons_self)
    have hrest := ih fun d hd => hp d (List.mem_cons_of_mem _ hd)
    have hstop : ¬(isGap c || isOperatorStart c) = true := by simp [hgap, hop]
    rw [List.cons_append, List.length_cons]
    cases ht : p ++ r with
    | nil =>
      rw [ht] at hrest
      rw [wordLength, if_neg hstop, ← hrest]
      rfl
    | cons d t =>
      rw [wordLength_none_cons c (by simp), if_neg hstop, if_neg hslash,
        quote_of_isPlain (hp c List.mem_cons_self), ← ht, hrest]

/-- A plain word is one token. -/
theorem lexes_plain {p r : Text} (hne : p ≠ []) (hp : ∀ c ∈ p, isPlain c = true)
    (hr : StartsApart r) : Lexes p r := by
  cases p with
  | nil => exact absurd rfl hne
  | cons c cs =>
    have hplain := hp c List.mem_cons_self
    obtain ⟨hgap, hop, -, -, hslash, htick⟩ := isPlain_iff.mp hplain
    refine lexes_of_lexemeLength hgap (quote_of_isPlain hplain) ?_
    rw [lexemeLength_word hop (quote_of_isPlain hplain) (fun h => hslash h.1) (fun h => htick h.1),
      ← List.cons_append, wordLength_plain hp hr, List.length_cons]
    omega

theorem lexes_ampersand {r : Text} (hr : r.head? ≠ some '&') : Lexes ['&'] r := by
  refine lexes_of_lexemeLength (by decide) rfl ?_
  cases r with
  | nil => rfl
  | cons c r =>
    have hc : '&' ≠ c := by simpa [eq_comm] using hr
    simp [lexemeLength, Quote.ofChar?, operatorAt?, operators_eq, hc, wordLength, isOperatorStart]

/-- A gap only moves what follows. -/
theorem tokenizeFrom_gap {gap : Text} (hg : ∀ c ∈ gap, isGap c = true) (pos : Nat) (r : Text) :
    tokenizeFrom pos 0 (gap ++ r) = tokenizeFrom (pos + Text.size gap) 0 r := by
  induction gap generalizing pos with
  | nil => rfl
  | cons c gap ih =>
    rw [List.cons_append, tokenizeFrom_cons_of_isGap (hg c List.mem_cons_self),
      ih (fun d hd => hg d (List.mem_cons_of_mem _ hd)), Text.size_cons, Nat.add_assoc]

/-! ## Tokens that open no group -/

/-- Neither a group nor a here-document opens at the token. -/
def Token.Single (t : Token) : Prop := ∀ o ∈ [['('], ['{'], ['<', '<']], t.isBare o = false

theorem coalesce_eq_self {extent : Token → List Token → Nat} {ts : List Token}
    (h : ∀ t us, t :: us <:+ ts → extent t us = 0) (line : Text) :
    coalesce line extent 0 ts = ts := by
  induction ts with
  | nil => rfl
  | cons t ts ih =>
    have hzero : extent t ts = 0 := h t ts (List.suffix_refl _)
    have hrest := ih fun u us hus => h u us (hus.trans (List.suffix_cons t ts))
    rw [coalesce, hzero]
    exact congrArg (t :: ·) hrest

/-- The passes for groups leave such tokens alone. -/
theorem Fusion.extent_single {pass : Fusion} (hp : pass ∈ Fusion.groups) {t : Token}
    {ts : List Token} (h : ∀ u ∈ t :: ts, u.Single) : pass.extent t ts = 0 := by
  cases ts with
  | nil => cases pass <;> rfl
  | cons next ts =>
    have hparen : next.isBare "(" = false :=
      h next (List.mem_cons_of_mem _ List.mem_cons_self) _ (by decide)
    have hbrace : next.isBare "\x7b" = false :=
      h next (List.mem_cons_of_mem _ List.mem_cons_self) _ (by decide)
    have hopen : t.isBare "\x7b" = false := h t List.mem_cons_self _ (by decide)
    have hdocument : t.isBare "<<" = false := h t List.mem_cons_self _ (by decide)
    cases pass with
    | commandSubstitution => simp only [extent, dollarGroupExtent, hparen, Bool.and_false,
        Bool.false_and, Bool.false_eq_true, if_false]
    | braceExpansion => simp only [extent, dollarGroupExtent, hbrace, Bool.and_false,
        Bool.false_and, Bool.false_eq_true, if_false]
    | emptyBraces => simp only [extent, emptyBracesExtent, hopen, Bool.false_and,
        Bool.false_eq_true, if_false]
    | heredoc => simp only [extent, heredocExtent, hdocument, Bool.false_and, Bool.false_eq_true,
        if_false]
    | processSubstitution => simp only [extent, processSubstitutionExtent, hparen, Bool.and_false,
        Bool.false_and, Bool.false_eq_true, if_false]
    | descriptorRedirection => simp [groups] at hp

theorem Fusion.apply_eq_self {pass : Fusion} (hp : pass ∈ Fusion.groups) {ts : List Token}
    (h : ∀ t ∈ ts, t.Single) (line : Text) : pass.apply line ts = ts := by
  refine coalesce_eq_self (fun t us hus => ?_) line
  exact extent_single hp fun u hu => h u (hus.subset hu)

theorem fuseGroups_eq_self {ts : List Token} (h : ∀ t ∈ ts, t.Single) (line : Text) :
    fuseGroups line ts = ts := by
  have hfold : ∀ passes : List Fusion, (∀ pass ∈ passes, pass ∈ Fusion.groups) →
      fuseWith passes line ts = ts := by
    intro passes
    induction passes with
    | nil => exact fun _ => rfl
    | cons pass passes ih =>
      intro hall
      rw [fuseWith_cons, Fusion.apply_eq_self (hall pass List.mem_cons_self) h]
      exact ih fun p hp => hall p (List.mem_cons_of_mem _ hp)
  exact hfold Fusion.groups fun _ hp => hp

theorem coalesce_skip (line : Text) (extent : Token → List Token → Nat) (more rest : List Token) :
    coalesce line extent more.length (more ++ rest) = coalesce line extent 0 rest := by
  induction more with
  | nil => rfl
  | cons t more ih => rw [List.length_cons, List.cons_append, coalesce, ih]

/-- A pass forms a unit at the front and goes on behind it. -/
theorem coalesce_cons {extent : Token → List Token → Nat} {t : Token} {more rest : List Token}
    (h : extent t (more ++ rest) = more.length) (line : Text) :
    coalesce line extent 0 (t :: (more ++ rest)) =
      (if more.isEmpty then t else t.merge line more) :: coalesce line extent 0 rest := by
  have htake : (more ++ rest).take more.length = more := by simp
  rw [coalesce, h, htake, coalesce_skip]

/-- A pass that never reaches too far fits. -/
theorem fits_of_le {extent : Token → List Token → Nat} {x : Token} {skip : Nat} {ts : List Token}
    (h : ∀ t us, t :: us <:+ ts → extent t (us ++ [x]) ≤ us.length) (hs : skip ≤ ts.length) :
    Fits extent x skip ts := by
  induction ts generalizing skip with
  | nil =>
    obtain rfl : skip = 0 := by simpa using hs
    trivial
  | cons t ts ih =>
    have hrest : ∀ u us, u :: us <:+ ts → extent u (us ++ [x]) ≤ us.length :=
      fun u us hus => h u us (hus.trans (List.suffix_cons t ts))
    cases skip with
    | succ skip => exact ih hrest (Nat.le_of_succ_le_succ hs)
    | zero =>
      have hle := h t ts (List.suffix_refl _)
      exact ⟨hle, ih hrest hle⟩

/-- The pass for redirections runs into no word behind a text. -/
theorem fits_descriptorRedirection {w : Text} {T : List Token} (h : ∀ t ∈ T, t.Inside w) :
    Fits Fusion.descriptorRedirection.extent (marker (Text.size w + 1)) 0 T := by
  refine fits_of_le (fun t us hus => ?_) (Nat.zero_le _)
  have hinside : ∀ u ∈ t :: us, u.Inside w := fun u hu => h u (hus.subset hu)
  rw [Fusion.extent, Fusion.descriptorRedirectionExtent_append (parted_marker hinside)]
  · exact Fusion.descriptorRedirectionExtent_le t us
  · exact fun _ s hs htouch =>
      absurd htouch ((hinside t List.mem_cons_self).touches_marker s hs)

/-- A text without groups is closed. -/
theorem closed_of_single {w : Text} (hc : CompleteBefore ' ' w) (h : ∀ t ∈ tokenize w, t.Single) :
    Closed w := by
  have hinside := inside_tokenize w
  have hmarker : (marker (Text.size w + 1)).Single := by
    intro o ho
    simp only [List.mem_cons, List.not_mem_nil, or_false] at ho
    rcases ho with rfl | rfl | rfl <;> rfl
  have hall : ∀ t ∈ tokenize w ++ [marker (Text.size w + 1)], t.Single := by
    intro t ht
    rcases List.mem_append.mp ht with ht | ht
    · exact h t ht
    · rw [List.mem_singleton.mp ht]
      exact hmarker
  have hread : tokenizeFrom (Text.size w) 0 [' ', 'x'] = [marker (Text.size w + 1)] := rfl
  rw [Closed, fused, hc, hread, fuse_eq, fuseGroups_eq_self hall,
    Fusion.descriptorRedirection.apply_append hinside (parted_marker hinside)
      (fits_descriptorRedirection hinside),
    Fusion.apply_singleton, fused, fuse_eq, fuseGroups_eq_self h]
  intro t ht s hs htouch
  exact absurd htouch ((Token.Inside.apply _ hinside t ht).touches_marker s hs)

/-! ## The shape of plain words -/

theorem plain_ne {v o : Text} (hv : ∀ c ∈ v, isPlain c = true) (hne : v ≠ [])
    (ho : o.head?.any isOperatorStart = true) : v ≠ o := by
  rintro rfl
  cases v with
  | nil => exact hne rfl
  | cons c v =>
    obtain ⟨-, hop, -⟩ := isPlain_iff.mp (hv c List.mem_cons_self)
    have hstart : isOperatorStart c = true := ho
    rw [hop] at hstart
    cases hstart

theorem isBare_plain {v o : Text} (hv : ∀ c ∈ v, isPlain c = true) (hne : v ≠ [])
    (ho : o.head?.any isOperatorStart = true) (n : Nat) : (bare v n).isBare o = false := by
  have hvalue : (v == o) = false := beq_eq_false_iff_ne.mpr (plain_ne hv hne ho)
  exact hvalue

theorem single_plain {v : Text} (hv : ∀ c ∈ v, isPlain c = true) (hne : v ≠ []) (n : Nat) :
    (bare v n).Single := by
  have hstart : ∀ o ∈ [['('], ['{'], ['<', '<']], o.head?.any isOperatorStart = true := by decide
  exact fun o ho => isBare_plain hv hne (hstart o ho) n

theorem isRedirectTarget_plain {v : Text} (hv : ∀ c ∈ v, isPlain c = true) (hne : v ≠ []) :
    isRedirectTarget v = true := by
  have hfirst : ∀ c, isPlain c = true → (c == '&' || c == '<' || c == '>' || c == '(') = false := by
    intro c hc
    simp only [Bool.or_eq_false_iff, beq_eq_false_iff_ne]
    refine ⟨⟨⟨?_, ?_⟩, ?_⟩, ?_⟩ <;> rintro rfl <;> revert hc <;> decide
  have hfeed : ∀ c, isPlain c = true → (c != '\n') = true := by
    intro c hc
    rw [bne_iff_ne]
    rintro rfl
    revert hc
    decide
  cases v with
  | nil => exact absurd rfl hne
  | cons c v =>
    rw [isRedirectTarget, hfirst c (hv c List.mem_cons_self)]
    simp only [Bool.not_false, Bool.true_and, List.all_eq_true]
    exact fun d hd => hfeed d (hv d (List.mem_cons_of_mem _ hd))

/-- A plain word is no redirection. -/
theorem isRedirection_plain {v : Text} (hv : ∀ c ∈ v, isPlain c = true) :
    isRedirection v = false := by
  have hplain : ∀ u : Text, (∀ c ∈ u, isPlain c = true) → isPlainRedirection u = false := by
    intro u hu
    unfold isPlainRedirection
    split
    · exact absurd (hu _ List.mem_cons_self) (by decide)
    · exact absurd (hu _ List.mem_cons_self) (by decide)
    · exact absurd (hu _ List.mem_cons_self) (by decide)
    · exact absurd (hu _ List.mem_cons_self) (by decide)
    · rfl
  unfold isRedirection
  split
  · exact absurd (hv _ List.mem_cons_self) (by decide)
  · exact hplain _ fun c hc => hv c ((List.dropWhile_suffix _).subset hc)

end CrossShell
