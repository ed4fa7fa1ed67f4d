import CrossShell.Proofs.Token.Spans

/-!
# Reading a part of a line

Reading looks ahead, but what it finds ahead only decides where the current token ends. So a line can
be cut in front of a token and behind it, and both parts are read as they were read together.

* `lexemeLength_of_le`: a token that ends within a text does not depend on what follows the text.
* `tokenizeFrom_split`: what stands before a token and what stands behind it can be read apart.
* `tokenizeFrom_append_gap`: a gap behind a text changes at most the last token.
-/

namespace CrossShell

/-! ## Tokens within a text -/

/-- A quoted run of a longer text, cut where the text is cut. -/
theorem quotedLength_eq_min (q : Quote) (cs r : Text) :
    quotedLength q cs = min (quotedLength q (cs ++ r)) cs.length := by
  fun_induction quotedLength q cs with
  | case1 => simp
  | case2 c =>
    have hpos := quotedLength_pos q c r
    rw [List.singleton_append, List.length_singleton]
    omega
  | case3 c d cs h ih =>
    rw [List.cons_append, List.cons_append, quotedLength, if_pos h, ih]
    simp only [List.length_cons]
    omega
  | case4 d cs h =>
    rw [List.cons_append, List.cons_append, quotedLength, if_neg h, if_pos rfl]
    simp only [List.length_cons]
    omega
  | case5 c d cs h hc ih =>
    rw [List.cons_append, List.cons_append, quotedLength, if_neg h, if_neg hc, ih]
    simp only [List.length_cons, List.cons_append]
    omega

/-- A word of a longer text, cut where the text is cut. -/
theorem wordLength_eq_min (o : Option Quote) (cs r : Text) :
    wordLength o cs = min (wordLength o (cs ++ r)) cs.length := by
  fun_induction wordLength o cs with
  | case1 => simp
  | case2 c h => rw [List.singleton_append, wordLength_of_ends h, Nat.zero_min]
  | case3 c h =>
    have hpos := wordLength_none_pos (Bool.eq_false_iff.mpr h) r
    rw [List.singleton_append, List.length_singleton]
    omega
  | case4 q c =>
    have hpos := wordLength_some_pos q c r
    rw [List.singleton_append, List.length_singleton]
    omega
  | case5 c d cs h => rw [List.cons_append, wordLength_of_ends h, Nat.zero_min]
  | case6 d cs h ih =>
    rw [List.cons_append, List.cons_append, wordLength, if_neg h, if_pos rfl, ih]
    simp only [List.length_cons]
    omega
  | case7 c d cs h hc ih =>
    rw [List.cons_append, List.cons_append, wordLength, if_neg h, if_neg hc, ih]
    simp only [List.length_cons, List.cons_append]
    omega
  | case8 q c d cs h ih =>
    rw [List.cons_append, List.cons_append, wordLength, if_pos h, ih]
    simp only [List.length_cons]
    omega
  | case9 q d cs h ih =>
    rw [List.cons_append, List.cons_append, wordLength, if_neg h, if_pos rfl, ih]
    simp only [List.length_cons, List.cons_append]
    omega
  | case10 q c d cs h hc ih =>
    rw [List.cons_append, List.cons_append, wordLength, if_neg h, if_neg hc, ih]
    simp only [List.length_cons, List.cons_append]
    omega

theorem operatorAt?_of_none {t r : Text} (h : operatorAt? (t ++ r) = none) :
    operatorAt? t = none := by
  refine List.find?_eq_none.mpr fun op hop hpre => List.find?_eq_none.mp h op hop ?_
  rw [List.isPrefixOf_iff_prefix] at hpre ⊢
  exact hpre.trans (List.prefix_append t r)

/-- An operator within a text is the one that the text alone starts with. -/
theorem operatorAt?_of_le {t r op : Text} (h : operatorAt? (t ++ r) = some op)
    (hle : op.length ≤ t.length) : operatorAt? t = some op := by
  obtain ⟨hpre, before, behind, hsplit, hbefore⟩ := List.find?_eq_some_iff_append.mp h
  refine List.find?_eq_some_iff_append.mpr ⟨?_, before, behind, hsplit, ?_⟩
  · rw [List.isPrefixOf_iff_prefix] at hpre ⊢
    exact List.prefix_of_prefix_length_le hpre (List.prefix_append t r) hle
  · -- An earlier operator at the start of the text would have been found.
    intro op' hop'
    have hnot := hbefore op' hop'
    rw [Bool.not_eq_true', Bool.eq_false_iff, ne_eq, List.isPrefixOf_iff_prefix] at hnot ⊢
    exact fun hp => hnot (hp.trans (List.prefix_append t r))

theorem startsOperator_append_right {cs : Text} (h : startsOperator cs = true) (r : Text) :
    startsOperator (cs ++ r) = true := by
  obtain ⟨d, ds, rfl, hd⟩ := exists_of_startsOperator h
  exact hd

theorem lexemeLength_backtick_of_le {cs r : Text} (ht : startsOperator (cs ++ r) = true)
    (h : lexemeLength '\x60' (cs ++ r) ≤ cs.length + 1) :
    lexemeLength '\x60' cs = lexemeLength '\x60' (cs ++ r) := by
  have hlong : ∀ p : Text, p.length = 3 → 4 ≤ cs.length + 1 → (p <+: cs ++ r ↔ p <+: cs) := by
    intro p hp hle
    refine ⟨fun hpre => ?_, fun hpre => hpre.trans (List.prefix_append cs r)⟩
    exact List.prefix_of_prefix_length_le hpre (List.prefix_append cs r) (by omega)
  rw [lexemeLength_backtick ht] at h ⊢
  cases cs with
  | nil => split at h <;> simp at h
  | cons d ds =>
    have hstarts : startsOperator (d :: ds) = true := ht
    rw [lexemeLength_backtick hstarts]
    split at h
    · rename_i hp
      rw [hlong _ rfl h, hlong _ rfl h] at hp
      rw [if_pos hp, if_pos]
      rwa [hlong _ rfl h, hlong _ rfl h]
    · rename_i hp
      rw [if_neg hp, if_neg]
      rintro (hpre | hpre)
      · exact hp (.inl (hpre.trans (List.prefix_append _ r)))
      · exact hp (.inr (hpre.trans (List.prefix_append _ r)))

/-- A token that ends within a text does not depend on what follows the text. -/
theorem lexemeLength_of_le {c : Char} {cs r : Text}
    (h : lexemeLength c (cs ++ r) ≤ cs.length + 1) :
    lexemeLength c cs = lexemeLength c (cs ++ r) := by
  cases hq : Quote.ofChar? c with
  | some q =>
    have hmin := quotedLength_eq_min q cs r
    simp only [lexemeLength, hq] at h ⊢
    omega
  | none =>
    by_cases hs : c = '\\' ∧ startsOperator (cs ++ r) = true
    · obtain ⟨rfl, hs⟩ := hs
      rw [lexemeLength_backslash hs] at h ⊢
      cases cs with
      | nil => simp at h
      | cons d ds => exact lexemeLength_backslash hs
    by_cases ht : c = '\x60' ∧ startsOperator (cs ++ r) = true
    · obtain ⟨rfl, ht⟩ := ht
      exact lexemeLength_backtick_of_le ht h
    have hs' : ¬(c = '\\' ∧ startsOperator cs = true) :=
      fun hand => hs ⟨hand.1, startsOperator_append_right hand.2 r⟩
    have ht' : ¬(c = '\x60' ∧ startsOperator cs = true) :=
      fun hand => ht ⟨hand.1, startsOperator_append_right hand.2 r⟩
    simp only [lexemeLength, hq, if_neg hs, if_neg ht, if_neg hs', if_neg ht'] at h ⊢
    cases hop : operatorAt? (c :: (cs ++ r)) with
    | some op =>
      simp only [hop] at h ⊢
      rw [operatorAt?_of_le (t := c :: cs) hop h]
    | none =>
      have hmin := wordLength_eq_min none (c :: cs) r
      rw [List.cons_append] at hmin
      simp only [hop] at h ⊢
      rw [operatorAt?_of_none (t := c :: cs) hop]
      simp only [List.length_cons] at hmin ⊢
      omega

/-- A line can be cut at a token: what stands before the token and what stands behind it are read by
themselves as they are read in the line. -/
theorem tokenizeFrom_split {pos : Nat} {text : Text} {T S : List Token} {s : Token}
    (h : tokenizeFrom pos 0 text = T ++ s :: S) :
    ∃ u v, text = u ++ s.value ++ v ∧ s.start = pos + Text.size u ∧
      s.stop = s.start + Text.size s.value ∧ tokenizeFrom pos 0 u = T ∧
      tokenizeFrom s.stop 0 v = S := by
  induction hn : text.length using Nat.strongRecOn generalizing pos text T with
  | ind n ih =>
    cases text with
    | nil => simp [tokenizeFrom] at h
    | cons c cs =>
      cases hc : isGap c with
      | true =>
        rw [tokenizeFrom_cons_of_isGap hc] at h
        obtain ⟨u, v, rfl, hstart, hstop, hu, hv⟩ := ih cs.length (by simp at hn; omega) h rfl
        refine ⟨c :: u, v, rfl, ?_, hstop, ?_, hv⟩
        · rw [hstart, Text.size_cons, Nat.add_assoc]
        · rw [tokenizeFrom_cons_of_isGap hc, hu]
      | false =>
        rw [tokenizeFrom_cons_of_not_isGap hc] at h
        cases T with
        | nil =>
          obtain ⟨rfl, hrest⟩ := List.cons.inj h
          refine ⟨[], (c :: cs).drop (lexemeLength c cs), ?_, rfl, rfl, rfl, hrest⟩
          exact (List.take_append_drop _ _).symm
        | cons t T =>
          obtain ⟨rfl, hrest⟩ := List.cons.inj h
          have hpos := lexemeLength_pos c cs
          obtain ⟨u, v, hsplit, hstart, hstop, hu, hv⟩ :=
            ih _ (by simp at hn ⊢; omega) hrest rfl
          obtain ⟨k, hk⟩ : ∃ k, lexemeLength c cs = k + 1 := ⟨lexemeLength c cs - 1, by omega⟩
          have hle : k ≤ cs.length := by
            have := lexemeLength_le c cs
            omega
          rw [hk, List.drop_succ_cons] at hsplit
          have hcs : cs = (cs.take k ++ u) ++ (s.value ++ v) := by
            conv => lhs; rw [← List.take_append_drop k cs, hsplit]
            simp only [List.append_assoc]
          -- Without what stands behind `u`, the first token is the same.
          have hsame : lexemeLength c (cs.take k ++ u) = k + 1 := by
            rw [lexemeLength_of_le (r := s.value ++ v), ← hcs, hk]
            rw [← hcs, hk, List.length_append, List.length_take, Nat.min_eq_left hle]
            omega
          have hlexeme : lexeme pos c (cs.take k ++ u) = lexeme pos c cs := by
            simp only [lexeme, hsame, hk, List.take_succ_cons]
            rw [List.take_append_of_le_length (by simp [hle]), List.take_take, Nat.min_self]
          refine ⟨c :: (cs.take k ++ u), v, ?_, ?_, hstop, ?_, hv⟩
          · rw [List.cons_append, List.cons_append, List.append_assoc, ← hcs]
          · rw [hstart, lexeme_stop, hk, List.take_succ_cons, ← List.cons_append, Text.size_append]
            omega
          · rw [tokenizeFrom_cons_of_not_isGap hc, hlexeme, hsame, List.drop_succ_cons,
              List.drop_append_of_le_length (by simp [hle]), List.drop_take, Nat.sub_self,
              List.take_zero, List.nil_append, hu]

/-! ## A gap behind a text -/

theorem startsOperator_of_isGap {g : Char} (hg : isGap g = true) (r : Text) :
    startsOperator (g :: r) = false := by
  rcases isGap_iff.mp hg with rfl | rfl | rfl | rfl | rfl <;> rfl

/-- A token that takes part of a gap along takes all of the text in front of it along. -/
theorem lexemeLength_of_gap {c g : Char} {cs r : Text} (hg : isGap g = true)
    (h : cs.length + 1 < lexemeLength c (cs ++ g :: r)) : lexemeLength c cs = cs.length + 1 := by
  have hgaps : ∀ op ∈ operators, ∀ c ∈ op, isGap c = false := by decide +kernel
  have hticks : ∀ p ∈ [['&', '\x60', '&'], ['|', '\x60', '|']], ∀ c ∈ p, isGap c = false := by decide
  have houtside : ∀ {p : Text}, (∀ c ∈ p, isGap c = false) → g ∉ p := by
    intro p hp hmem
    rw [hp g hmem] at hg
    cases hg
  cases hq : Quote.ofChar? c with
  | some q =>
    have hmin := quotedLength_eq_min q cs (g :: r)
    simp only [lexemeLength, hq] at h ⊢
    omega
  | none =>
    by_cases hs : c = '\\' ∧ startsOperator (cs ++ g :: r) = true
    · obtain ⟨rfl, hs⟩ := hs
      rw [lexemeLength_backslash hs] at h
      obtain rfl : cs = [] := List.eq_nil_of_length_eq_zero (by omega)
      rw [List.nil_append, startsOperator_of_isGap hg] at hs
      cases hs
    by_cases ht : c = '\x60' ∧ startsOperator (cs ++ g :: r) = true
    · obtain ⟨rfl, ht⟩ := ht
      rw [lexemeLength_backtick ht] at h
      split at h
      · rename_i hp
        rw [prefix_append_cons_iff (houtside (hticks _ (by simp))) cs r,
          prefix_append_cons_iff (houtside (hticks _ (by simp))) cs r] at hp
        have hlength : 3 ≤ cs.length := by
          rcases hp with hp | hp <;> exact hp.length_le
        omega
      · obtain rfl : cs = [] := List.eq_nil_of_length_eq_zero (by omega)
        rw [List.nil_append, startsOperator_of_isGap hg] at ht
        cases ht
    have hs' : ¬(c = '\\' ∧ startsOperator cs = true) :=
      fun hand => hs ⟨hand.1, startsOperator_append_right hand.2 _⟩
    have ht' : ¬(c = '\x60' ∧ startsOperator cs = true) :=
      fun hand => ht ⟨hand.1, startsOperator_append_right hand.2 _⟩
    simp only [lexemeLength, hq, if_neg hs, if_neg ht, if_neg hs', if_neg ht'] at h ⊢
    cases hop : operatorAt? (c :: (cs ++ g :: r)) with
    | some op =>
      have hpre : op <+: c :: cs := by
        have hfound := List.find?_some hop
        rw [List.isPrefixOf_iff_prefix, ← List.cons_append] at hfound
        exact (prefix_append_cons_iff (houtside (hgaps op (List.mem_of_find?_eq_some hop))) _ _).mp
          hfound
      have hlength := hpre.length_le
      simp only [hop, List.length_cons] at h hlength
      omega
    | none =>
      have hmin := wordLength_eq_min none (c :: cs) (g :: r)
      rw [List.cons_append] at hmin
      simp only [hop] at h
      rw [operatorAt?_of_none (t := c :: cs) hop]
      simp only [List.length_cons] at hmin ⊢
      omega

/-- A token without the blanks at its end. -/
def Token.trimmed (t : Token) : Token :=
  { t with value := Text.trimBack t.value, stop := t.start + Text.size (Text.trimBack t.value) }

/-- The last of some tokens without the blanks at its end. -/
def trimLast : List Token → List Token
  | [] => []
  | [t] => [t.trimmed]
  | t :: u :: ts => t :: trimLast (u :: ts)

theorem tokenizeFrom_gaps {gap : Text} (h : ∀ c ∈ gap, isGap c = true) (pos : Nat) :
    tokenizeFrom pos 0 gap = [] := by
  induction gap generalizing pos with
  | nil => rfl
  | cons c gap ih =>
    rw [tokenizeFrom_cons_of_isGap (h c List.mem_cons_self)]
    exact ih (fun d hd => h d (List.mem_cons_of_mem _ hd)) _

theorem trimLast_cons {t : Token} {ts : List Token} (h : ts ≠ []) :
    trimLast (t :: ts) = t :: trimLast ts := by
  cases ts with
  | nil => exact absurd rfl h
  | cons u ts => rfl

theorem isBlank_of_isGap {c : Char} (h : isGap c = true) : Text.isBlank c = true := by
  rcases isGap_iff.mp h with rfl | rfl | rfl | rfl | rfl <;> rfl

theorem Token.trimmed_eq_self {t : Token} (hstop : t.stop = t.start + Text.size t.value)
    (h : ∀ c ∈ t.value.getLast?, Text.isBlank c = false) : t.trimmed = t := by
  rw [trimmed, Text.trimBack_of_getLast h, ← hstop]

/-- A text that ends in something else than a gap has a token. -/
theorem tokenizeFrom_ne_nil {w : Text} (hne : w ≠ [])
    (hlast : ∀ c ∈ w.getLast?, Text.isBlank c = false) (pos : Nat) :
    tokenizeFrom pos 0 w ≠ [] := by
  intro h
  obtain ⟨a, cuts, rfl, -, htokens, ha, -⟩ := exists_placed_tokenizeFrom pos w
  rw [h, List.map_eq_nil_iff] at htokens
  subst htokens
  rw [ofCuts_nil] at hne hlast
  have hlast' := hlast (a.getLast hne) (List.getLast?_eq_some_getLast hne)
  have hgap := isBlank_of_isGap (List.all_eq_true.mp ha _ (List.getLast_mem hne))
  rw [hlast'] at hgap
  cases hgap

/-- A token that takes part of a gap along is the last one, and without the blanks at its end it is
what stands in front of the gap. -/
theorem tokenizeFrom_of_lt {c : Char} {cs gap : Text} (hc : isGap c = false)
    (hlast : ∀ d ∈ (c :: cs).getLast?, Text.isBlank d = false)
    (hgap : ∀ d ∈ gap, isGap d = true) (h : cs.length + 1 < lexemeLength c (cs ++ gap))
    (pos : Nat) :
    tokenizeFrom pos 0 (c :: cs) = trimLast (tokenizeFrom pos 0 (c :: cs ++ gap)) := by
  obtain ⟨g, r, rfl⟩ : ∃ g r, gap = g :: r := by
    cases gap with
    | nil =>
      have := lexemeLength_le c (cs ++ [])
      rw [List.append_nil] at h this
      omega
    | cons g r => exact ⟨g, r, rfl⟩
  have hall := lexemeLength_of_gap (hgap g List.mem_cons_self) h
  obtain ⟨k, hk⟩ : ∃ k, lexemeLength c (cs ++ g :: r) = (c :: cs).length + k :=
    ⟨lexemeLength c (cs ++ g :: r) - (c :: cs).length, by rw [List.length_cons]; omega⟩
  have htake : Text.Blank ((g :: r).take k) := fun d hd =>
    isBlank_of_isGap (hgap d (List.mem_of_mem_take hd))
  have hdrop : ∀ d ∈ (g :: r).drop k, isGap d = true := fun d hd =>
    hgap d (List.mem_of_mem_drop hd)
  have htrim : Text.trimBack (c :: cs ++ (g :: r).take k) = c :: cs := by
    rw [Text.trimBack_append_blank htake, Text.trimBack_of_getLast hlast]
  have hwhole : (c :: cs).take (cs.length + 1) = c :: cs := List.take_of_length_le (by simp)
  rw [List.cons_append, tokenizeFrom_cons_of_not_isGap hc, tokenizeFrom_cons_of_not_isGap hc, hk,
    ← List.cons_append, List.drop_length_add_append, tokenizeFrom_gaps hdrop, trimLast, hall,
    List.drop_of_length_le (by simp)]
  simp only [lexeme, Token.trimmed, hk, hall, ← List.cons_append, List.take_length_add_append,
    htrim, hwhole]
  rfl

/-- A gap behind a text changes at most the last token of the text, which may take part of the gap
along. -/
theorem tokenizeFrom_append_gap {w gap : Text} (hlast : ∀ c ∈ w.getLast?, Text.isBlank c = false)
    (hgap : ∀ c ∈ gap, isGap c = true) (pos : Nat) :
    tokenizeFrom pos 0 w = trimLast (tokenizeFrom pos 0 (w ++ gap)) := by
  induction hn : w.length using Nat.strongRecOn generalizing pos w with
  | ind n ih =>
    cases w with
    | nil => rw [List.nil_append, tokenizeFrom_gaps hgap]; rfl
    | cons c cs =>
      cases hc : isGap c with
      | true =>
        have hne : cs ≠ [] := by
          rintro rfl
          have := hlast c rfl
          rw [isBlank_of_isGap hc] at this
          cases this
        rw [List.cons_append, tokenizeFrom_cons_of_isGap hc, tokenizeFrom_cons_of_isGap hc]
        refine ih cs.length (by simp at hn; omega) ?_ _ rfl
        rwa [List.getLast?_cons_of_ne_nil hne] at hlast
      | false =>
        by_cases hle : lexemeLength c (cs ++ gap) ≤ cs.length + 1
        · -- The token ends within the text.
          have hsame := lexemeLength_of_le hle
          have hdrop : (c :: (cs ++ gap)).drop (lexemeLength c (cs ++ gap)) =
              (c :: cs).drop (lexemeLength c cs) ++ gap := by
            rw [← hsame, ← List.cons_append,
              List.drop_append_of_le_length (by simpa [hsame] using hle)]
          have hpos := lexemeLength_pos c cs
          rw [List.cons_append, tokenizeFrom_cons_of_not_isGap hc,
            tokenizeFrom_cons_of_not_isGap hc, lexeme_append hsame.symm (lexemeLength_le c cs),
            hdrop]
          by_cases hnil : (c :: cs).drop (lexemeLength c cs) = []
          · have hvalue : (lexeme pos c cs).value = c :: cs :=
              List.take_of_length_le (List.drop_eq_nil_iff.mp hnil)
            rw [hnil, List.nil_append, tokenizeFrom_gaps hgap, trimLast,
              Token.trimmed_eq_self rfl (by rwa [hvalue])]
            rfl
          · have hend : ∀ d ∈ ((c :: cs).drop (lexemeLength c cs)).getLast?,
                Text.isBlank d = false := by
              rw [List.getLast?_drop, if_neg (by rwa [← List.drop_eq_nil_iff])]
              exact hlast
            have hrest := ih _ (by simp at hn ⊢; omega) hend (lexeme pos c cs).stop rfl
            have hsome := tokenizeFrom_ne_nil hnil hend (lexeme pos c cs).stop
            rw [trimLast_cons, ← hrest]
            intro hempty
            rw [hrest, hempty] at hsome
            exact hsome rfl
        · exact tokenizeFrom_of_lt hc hlast hgap (Nat.lt_of_not_le hle) pos

end CrossShell
