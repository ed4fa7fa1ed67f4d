import CrossShell.Proofs.Line.Scan
import Mathlib.Data.List.Find

/-!
# Reading a text with more behind it

A text that is complete, with no quote open and no backslash at its end, reads the same with more
words behind it, and in most cases with a redirection written directly behind it.

* `CompleteBefore`: a character and a word behind the text are read as if they stood alone.
* `tokenizeFrom_append`: then so is anything behind a character of that kind.
* `tokenizeFrom_append_operator`: the same for a text that an operator stands behind.
* `tokenizeFrom_shift`: where a text stands only moves its tokens.
-/

namespace CrossShell

/-! ## Lengths -/

theorem quotedLength_le (q : Quote) (cs : Text) : quotedLength q cs ≤ cs.length := by
  fun_induction quotedLength q cs <;> simp_all

theorem wordLength_le (o : Option Quote) (cs : Text) : wordLength o cs ≤ cs.length := by
  fun_induction wordLength o cs <;> simp_all

theorem quotedLength_pos (q : Quote) (c : Char) (cs : Text) : 0 < quotedLength q (c :: cs) := by
  cases cs with
  | nil => exact Nat.one_pos
  | cons d cs =>
    rw [quotedLength]
    split
    · omega
    · split <;> omega

theorem wordLength_some_pos (q : Quote) (c : Char) (cs : Text) :
    0 < wordLength (some q) (c :: cs) := by
  cases cs with
  | nil => exact Nat.one_pos
  | cons d cs =>
    rw [wordLength]
    split
    · omega
    · split <;> omega

theorem wordLength_none_pos {c : Char} (h : (isGap c || isOperatorStart c) = false) (cs : Text) :
    0 < wordLength none (c :: cs) := by
  cases cs with
  | nil => simp [wordLength, h]
  | cons d cs =>
    rw [wordLength, h]
    simp only [Bool.false_eq_true, ↓reduceIte]
    split <;> omega

theorem wordLength_of_ends {g : Char} (h : (isGap g || isOperatorStart g) = true) (r : Text) :
    wordLength none (g :: r) = 0 := by
  cases r <;> rw [wordLength, if_pos h]

theorem quotedLength_cons (q : Quote) (c : Char) {t : Text} (h : t ≠ []) : quotedLength q (c :: t) =
    if q = .double ∧ c = '\\' then quotedLength q t.tail + 2
    else if c = q.char then 1
    else quotedLength q t + 1 := by
  cases t with
  | nil => exact absurd rfl h
  | cons d t => rw [quotedLength]; rfl

theorem wordLength_none_cons (c : Char) {t : Text} (h : t ≠ []) : wordLength none (c :: t) =
    if isGap c || isOperatorStart c then 0
    else if c = '\\' then wordLength none t.tail + 2
    else wordLength (Quote.ofChar? c) t + 1 := by
  cases t with
  | nil => exact absurd rfl h
  | cons d t => rw [wordLength]; rfl

theorem wordLength_some_cons (q : Quote) (c : Char) {t : Text} (h : t ≠ []) :
    wordLength (some q) (c :: t) =
      if q = .double ∧ c = '\\' then wordLength (some q) t.tail + 2
      else if c = q.char then wordLength none t + 1
      else wordLength (some q) t + 1 := by
  cases t with
  | nil => exact absurd rfl h
  | cons d t => rw [wordLength]; rfl

/-- A quoted run that ends before a character ends there whatever stands in its place. -/
theorem quotedLength_append {q : Quote} {cs y : Text} {g : Char}
    (h : quotedLength q (cs ++ g :: y) ≤ cs.length) (g' : Char) (r : Text) :
    quotedLength q (cs ++ g' :: r) = quotedLength q (cs ++ g :: y) := by
  induction hn : cs.length using Nat.strongRecOn generalizing cs with
  | ind n ih =>
    cases cs with
    | nil =>
      have hpos := quotedLength_pos q g y
      rw [List.nil_append, List.length_nil] at h
      omega
    | cons c cs =>
      have hlt : cs.length < n := by rw [List.length_cons] at hn; omega
      rw [List.cons_append, quotedLength_cons q c (by simp), List.length_cons] at h
      rw [List.cons_append, List.cons_append, quotedLength_cons q c (by simp),
        quotedLength_cons q c (by simp)]
      split
      · rw [if_pos ‹_›] at h
        cases cs with
        | nil => simp at h
        | cons d cs =>
          have hle : quotedLength q (cs ++ g :: y) ≤ cs.length := by simpa using h
          exact congrArg (· + 2) (ih _ (by rw [List.length_cons] at hlt; omega) hle rfl)
      · rw [if_neg ‹_›] at h
        split
        · rfl
        · rw [if_neg ‹_›] at h
          exact congrArg (· + 1) (ih _ hlt (by omega) rfl)

/-- A word that ends before a character that ends words ends before every other one. -/
theorem wordLength_append {o : Option Quote} {cs y : Text} {g g' : Char}
    (hg : (isGap g || isOperatorStart g) = true) (hg' : (isGap g' || isOperatorStart g') = true)
    (r : Text) (h : wordLength o (cs ++ g :: y) ≤ cs.length) :
    wordLength o (cs ++ g' :: r) = wordLength o (cs ++ g :: y) := by
  induction hn : cs.length using Nat.strongRecOn generalizing cs o with
  | ind n ih =>
    cases cs with
    | nil =>
      cases o with
      | none => rw [List.nil_append, List.nil_append, wordLength_of_ends hg, wordLength_of_ends hg']
      | some q =>
        have hpos := wordLength_some_pos q g y
        rw [List.nil_append, List.length_nil] at h
        omega
    | cons c cs =>
      have hlt : cs.length < n := by rw [List.length_cons] at hn; omega
      rw [List.cons_append, List.length_cons] at h
      rw [List.cons_append, List.cons_append]
      cases o with
      | none =>
        rw [wordLength_none_cons c (by simp)] at h ⊢
        rw [wordLength_none_cons c (by simp)]
        split
        · rfl
        · rw [if_neg ‹_›] at h
          split
          · rw [if_pos ‹_›] at h
            cases cs with
            | nil => simp at h
            | cons d cs =>
              have hle : wordLength none (cs ++ g :: y) ≤ cs.length := by simpa using h
              exact congrArg (· + 2) (ih _ (by rw [List.length_cons] at hlt; omega) hle rfl)
          · rw [if_neg ‹_›] at h
            exact congrArg (· + 1) (ih _ hlt (by omega) rfl)
      | some q =>
        rw [wordLength_some_cons q c (by simp)] at h ⊢
        rw [wordLength_some_cons q c (by simp)]
        split
        · rw [if_pos ‹_›] at h
          cases cs with
          | nil => simp at h
          | cons d cs =>
            have hle : wordLength (some q) (cs ++ g :: y) ≤ cs.length := by simpa using h
            exact congrArg (· + 2) (ih _ (by rw [List.length_cons] at hlt; omega) hle rfl)
        · rw [if_neg ‹_›] at h
          split
          · rw [if_pos ‹_›] at h
            exact congrArg (· + 1) (ih _ hlt (by omega) rfl)
          · rw [if_neg ‹_›] at h
            exact congrArg (· + 1) (ih _ hlt (by omega) rfl)

/-! ## Lexemes -/

theorem lexemeLength_backslash {cs : Text} (h : startsOperator cs = true) :
    lexemeLength '\\' cs = 2 := by
  simp [lexemeLength, Quote.ofChar?, h]

theorem lexemeLength_backtick {cs : Text} (h : startsOperator cs = true) :
    lexemeLength '\x60' cs =
      if ['&', '\x60', '&'] <+: cs ∨ ['|', '\x60', '|'] <+: cs then 4 else 2 := by
  simp [lexemeLength, Quote.ofChar?, h]

/-- Whether two characters end a token in the same way: both are gaps, or they are one and the same
redirection character. -/
def SameEnd (g g' : Char) : Prop :=
  isGap g = true ∧ isGap g' = true ∨ g = g' ∧ (g = '<' ∨ g = '>')

theorem SameEnd.ends {g g' : Char} (h : SameEnd g g') :
    (isGap g || isOperatorStart g) = true ∧ (isGap g' || isOperatorStart g') = true := by
  rcases h with ⟨hg, hg'⟩ | ⟨rfl, rfl | rfl⟩
  · simp [hg, hg']
  · decide
  · decide

/-- Neither character stands in the protected connectors. -/
theorem SameEnd.ne {g g' : Char} (h : SameEnd g g') :
    ∀ c ∈ ['&', '|', '\x60'], g ≠ c ∧ g' ≠ c := by
  have hgap : ∀ c ∈ ['&', '|', '\x60'], isGap c = false ∧ '<' ≠ c ∧ '>' ≠ c := by decide
  intro c hc
  obtain ⟨hc, hlt, hgt⟩ := hgap c hc
  rcases h with ⟨hg, hg'⟩ | ⟨rfl, rfl | rfl⟩
  · refine ⟨?_, ?_⟩ <;> rintro rfl <;> simp_all
  · exact ⟨hlt, hlt⟩
  · exact ⟨hgt, hgt⟩

/-- What does not hold a character cannot reach across it. -/
theorem prefix_append_cons_iff {p : Text} {g : Char} (hp : g ∉ p) (cs r : Text) :
    p <+: cs ++ g :: r ↔ p <+: cs := by
  induction p generalizing cs with
  | nil => simp
  | cons a p ih =>
    rw [List.mem_cons, not_or] at hp
    cases cs with
    | nil => simp [List.cons_prefix_cons, Ne.symm hp.1]
    | cons c cs => rw [List.cons_append, List.cons_prefix_cons, List.cons_prefix_cons, ih hp.2]

theorem isPrefixOf_append_cons {p : Text} {g : Char} (hp : g ∉ p) (cs r : Text) :
    List.isPrefixOf p (cs ++ g :: r) = List.isPrefixOf p cs := by
  rw [Bool.eq_iff_iff, List.isPrefixOf_iff_prefix, List.isPrefixOf_iff_prefix,
    prefix_append_cons_iff hp cs]

/-- Operators are short: which one a text starts with depends on two of its characters. -/
theorem operatorAt?_take_two (t : Text) : operatorAt? (t.take 2) = operatorAt? t := by
  have hshort : ∀ op ∈ operators, op.length ≤ 2 := by decide +kernel
  refine List.find?_congr fun op hop => ?_
  rw [Bool.eq_iff_iff, List.isPrefixOf_iff_prefix, List.isPrefixOf_iff_prefix,
    List.prefix_take_iff, and_iff_left (hshort op hop)]

theorem operatorAt?_append {g g' : Char} (h : SameEnd g g') (c : Char) (cs y r : Text) :
    operatorAt? (c :: cs ++ g' :: r) = operatorAt? (c :: cs ++ g :: y) := by
  have hgaps : ∀ op ∈ operators, ∀ c ∈ op, isGap c = false := by decide +kernel
  have hcut : ∀ {g : Char}, isGap g = true → ∀ r, operatorAt? (c :: cs ++ g :: r) =
      operatorAt? (c :: cs) := by
    intro g hg r
    refine List.find?_congr fun op hop => isPrefixOf_append_cons ?_ _ _
    intro hmem
    rw [hgaps op hop g hmem] at hg
    cases hg
  rcases h with ⟨hg, hg'⟩ | ⟨rfl, -⟩
  · rw [hcut hg, hcut hg']
  · rw [← operatorAt?_take_two, ← operatorAt?_take_two (c :: cs ++ g :: y)]
    cases cs <;> rfl

theorem startsOperator_append {g g' : Char} (h : SameEnd g g') (cs y r : Text) :
    startsOperator (cs ++ g' :: r) = startsOperator (cs ++ g :: y) := by
  cases cs with
  | cons c cs => rfl
  | nil =>
    have hgap : ∀ {g : Char}, isGap g = true → isOperatorStart g = false := by
      intro g hg
      rcases isGap_iff.mp hg with rfl | rfl | rfl | rfl | rfl <;> rfl
    rcases h with ⟨hg, hg'⟩ | ⟨rfl, -⟩
    · exact (hgap hg').trans (hgap hg).symm
    · rfl

/-- A token that ends before a character ends before another one, if both end words, and if a
protected operator and an operator are read in the same way from there. -/
theorem lexemeLength_congr {c : Char} {cs y r : Text} {g g' : Char}
    (hg : (isGap g || isOperatorStart g) = true) (hg' : (isGap g' || isOperatorStart g') = true)
    (hstarts : startsOperator (cs ++ g' :: r) = startsOperator (cs ++ g :: y))
    (hoperator : operatorAt? (c :: cs ++ g' :: r) = operatorAt? (c :: cs ++ g :: y))
    (hpair : ∀ d ∈ ['&', '|'], cs ≠ [] → List.isPrefixOf [d, '\x60', d] (cs ++ g' :: r) =
      List.isPrefixOf [d, '\x60', d] (cs ++ g :: y))
    (h : lexemeLength c (cs ++ g :: y) ≤ cs.length + 1) :
    lexemeLength c (cs ++ g' :: r) = lexemeLength c (cs ++ g :: y) := by
  have hand : "&\x60&".toList = ['&', '\x60', '&'] := rfl
  have hbar : "|\x60|".toList = ['|', '\x60', '|'] := rfl
  unfold lexemeLength at h ⊢
  simp only [← List.cons_append, hstarts, hoperator, hand, hbar] at h ⊢
  cases hq : Quote.ofChar? c with
  | some q =>
    simp only [hq] at h ⊢
    exact congrArg (· + 1) (quotedLength_append (Nat.le_of_succ_le_succ h) g' r)
  | none =>
    simp only [hq] at h ⊢
    by_cases hs : c = '\\' ∧ startsOperator (cs ++ g :: y) = true
    · rw [if_pos hs, if_pos hs]
    by_cases ht : c = '\x60' ∧ startsOperator (cs ++ g :: y) = true
    · rw [if_neg hs, if_pos ht] at h
      rw [if_neg hs, if_neg hs, if_pos ht, if_pos ht]
      -- Two characters at least belong to the token, so there is one in front of `g`.
      have hne : cs ≠ [] := by
        rintro rfl
        split at h <;> simp at h
      rw [hpair '&' (by simp) hne, hpair '|' (by simp) hne]
    rw [if_neg hs, if_neg ht] at h
    rw [if_neg hs, if_neg hs, if_neg ht, if_neg ht]
    cases hop : operatorAt? (c :: cs ++ g :: y) with
    | some op => rfl
    | none =>
      have hle : wordLength none (c :: cs ++ g :: y) ≤ (c :: cs).length := by
        simp only [hop, List.length_cons] at h ⊢
        omega
      simp only [wordLength_append hg hg' r hle]

/-- A token that ends before a character ends before every one that ends tokens in the same way. -/
theorem lexemeLength_append {c : Char} {cs y : Text} {g g' : Char} (hg : SameEnd g g') (r : Text)
    (h : lexemeLength c (cs ++ g :: y) ≤ cs.length + 1) :
    lexemeLength c (cs ++ g' :: r) = lexemeLength c (cs ++ g :: y) := by
  refine lexemeLength_congr hg.ends.1 hg.ends.2 (startsOperator_append hg cs y r)
    (operatorAt?_append hg c cs y r) (fun d hd _ => ?_) h
  have hmem : ∀ d ∈ ['&', '|'], ∀ e ∈ [d, '\x60', d], e ∈ ['&', '|', '\x60'] := by decide
  rw [isPrefixOf_append_cons fun he => (hg.ne g' (hmem d hd g' he)).2 rfl,
    isPrefixOf_append_cons fun he => (hg.ne g (hmem d hd g he)).1 rfl]

/-- A token that ends before an operator does so whatever stands behind the first character of the
operator. -/
theorem lexemeLength_append_operator {c : Char} {cs y : Text} {g : Char}
    (hg : isOperatorStart g = true) (r : Text) (h : lexemeLength c (cs ++ g :: y) ≤ cs.length + 1) :
    lexemeLength c (cs ++ g :: r) = lexemeLength c (cs ++ g :: y) := by
  have hends : (isGap g || isOperatorStart g) = true := by rw [hg, Bool.or_true]
  refine lexemeLength_congr hends hends ?_ ?_ (fun d _ hne => ?_) h
  · cases cs <;> rfl
  · rw [← operatorAt?_take_two, ← operatorAt?_take_two (c :: cs ++ g :: y)]
    cases cs <;> rfl
  · -- The backtick between two protected characters is no operator.
    have hback : ('\x60' == g) = false := by
      refine beq_false_of_ne ?_
      rintro rfl
      cases hg
    match cs, hne with
    | [e], _ => simp [List.isPrefixOf, hback]
    | [_, _], _ => rfl
    | _ :: _ :: _ :: _, _ => rfl

theorem lexemeLength_le (c : Char) (cs : Text) : lexemeLength c cs ≤ cs.length + 1 := by
  unfold lexemeLength
  split
  · exact Nat.succ_le_succ (quotedLength_le _ _)
  · split
    · rename_i hs
      obtain ⟨d, ds, rfl, -⟩ := exists_of_startsOperator hs.2
      simp
    · split
      · rename_i ht
        obtain ⟨d, ds, rfl, -⟩ := exists_of_startsOperator ht.2
        split
        · rename_i hp
          have hlen : 3 ≤ (d :: ds).length := by
            rw [Bool.or_eq_true, List.isPrefixOf_iff_prefix, List.isPrefixOf_iff_prefix] at hp
            rcases hp with hp | hp <;> exact hp.length_le
          omega
        · simp
      · split
        · rename_i op hop
          have hp := List.find?_some hop
          rw [List.isPrefixOf_iff_prefix] at hp
          exact hp.length_le
        · have hle := wordLength_le none (c :: cs)
          rw [List.length_cons] at hle
          omega

/-! ## Reading -/

/-- Where a text stands only moves its tokens. -/
def Token.shift (n : Nat) (t : Token) : Token := { t with start := n + t.start, stop := n + t.stop }

theorem tokenizeFrom_shift (n pos skip : Nat) (t : Text) :
    tokenizeFrom (n + pos) skip t = (tokenizeFrom pos skip t).map (Token.shift n) := by
  induction t generalizing pos skip with
  | nil => simp [tokenizeFrom]
  | cons c t ih =>
    cases skip with
    | succ skip => rw [tokenizeFrom, tokenizeFrom, Nat.add_assoc, ih]
    | zero =>
      rw [tokenizeFrom, tokenizeFrom, Nat.add_assoc, ih, ih]
      split
      · rfl
      · simp [lexeme, Token.shift, Nat.add_assoc]

theorem tokenizeFrom_eq (n : Nat) (t : Text) :
    tokenizeFrom n 0 t = (tokenize t).map (Token.shift n) :=
  tokenizeFrom_shift n 0 0 t

/-- A character and a word behind the text are read as if they stood alone: no quote is open, and no
backslash stands at the end. -/
def CompleteBefore (g : Char) (w : Text) : Prop :=
  tokenize (w ++ [g, 'x']) = tokenize w ++ tokenizeFrom (Text.size w) 0 [g, 'x']

instance (g : Char) (w : Text) : Decidable (CompleteBefore g w) :=
  inferInstanceAs (Decidable (_ = _))

theorem lexemeLength_of_lexeme_eq {pos : Nat} {c : Char} {cs t : Text}
    (h : lexeme pos c (cs ++ t) = lexeme pos c cs) :
    lexemeLength c (cs ++ t) = lexemeLength c cs := by
  have hle := lexemeLength_le c cs
  have hle' := lexemeLength_le c (cs ++ t)
  have hvalue := congrArg (fun l : Token => l.value.length) h
  simp only [lexeme, List.length_take, List.length_cons] at hvalue
  omega

theorem lexeme_append {c : Char} {cs t : Text} (h : lexemeLength c (cs ++ t) = lexemeLength c cs)
    (hle : lexemeLength c cs ≤ cs.length + 1) {pos : Nat} :
    lexeme pos c (cs ++ t) = lexeme pos c cs := by
  simp only [lexeme, h, ← List.cons_append]
  rw [List.take_append_of_le_length hle]

/-- If a text is read as if nothing stood behind it, then so with another text behind it before
which its tokens end as well. -/
theorem tokenizeFrom_append_of_lexemes {w y r : Text} {g g' : Char}
    (hend : ∀ c cs, lexemeLength c (cs ++ g :: y) ≤ cs.length + 1 →
      lexemeLength c (cs ++ g' :: r) = lexemeLength c (cs ++ g :: y)) {pos : Nat} {S : List Token}
    (h : tokenizeFrom pos 0 (w ++ g :: y) = tokenizeFrom pos 0 w ++ S) :
    tokenizeFrom pos 0 (w ++ g' :: r) =
      tokenizeFrom pos 0 w ++ tokenizeFrom (pos + Text.size w) 0 (g' :: r) := by
  induction hn : w.length using Nat.strongRecOn generalizing pos w with
  | ind n ih =>
    cases w with
    | nil => simp [tokenizeFrom]
    | cons c cs =>
      cases hc : isGap c with
      | true =>
        rw [List.cons_append, tokenizeFrom_cons_of_isGap hc, tokenizeFrom_cons_of_isGap hc] at h ⊢
        rw [Text.size_cons, ← Nat.add_assoc]
        exact ih cs.length (by simp at hn; omega) h rfl
      | false =>
        rw [List.cons_append, tokenizeFrom_cons_of_not_isGap hc, tokenizeFrom_cons_of_not_isGap hc,
          List.cons_append] at h ⊢
        obtain ⟨hlexeme, hrest⟩ := List.cons.inj h
        have hlength : lexemeLength c (cs ++ g :: y) = lexemeLength c cs :=
          lexemeLength_of_lexeme_eq hlexeme
        have hle := lexemeLength_le c cs
        have hsame : lexemeLength c (cs ++ g' :: r) = lexemeLength c cs := by
          rw [← hlength] at hle ⊢
          exact hend c cs hle
        have hdrop : ∀ t : Text, (c :: (cs ++ t)).drop (lexemeLength c cs) =
            (c :: cs).drop (lexemeLength c cs) ++ t := by
          intro t
          rw [← List.cons_append, List.drop_append_of_le_length hle]
        have hsize : pos + Text.size (c :: cs) =
            (lexeme pos c cs).stop + Text.size ((c :: cs).drop (lexemeLength c cs)) := by
          rw [lexeme_stop, Nat.add_assoc, ← Text.size_append, List.take_append_drop]
        rw [hlexeme, hlength, hdrop] at hrest
        have hnew := ih _ (by have := lexemeLength_pos c cs; simp at hn ⊢; omega) hrest rfl
        rw [lexeme_append hsame hle, hsame, hdrop, hsize, ← hnew]

/-- Behind a complete text, reading starts anew. -/
theorem tokenizeFrom_append {w : Text} {g g' : Char} (h : CompleteBefore g w) (hg : SameEnd g g')
    (pos : Nat) (r : Text) :
    tokenizeFrom pos 0 (w ++ g' :: r) =
      tokenizeFrom pos 0 w ++ tokenizeFrom (pos + Text.size w) 0 (g' :: r) := by
  have hpos : tokenizeFrom pos 0 (w ++ [g, 'x']) =
      tokenizeFrom pos 0 w ++ tokenizeFrom (pos + Text.size w) 0 [g, 'x'] := by
    rw [tokenizeFrom_eq pos (w ++ [g, 'x']), h, List.map_append, tokenizeFrom_shift,
      ← tokenizeFrom_eq]
  exact tokenizeFrom_append_of_lexemes (fun _ _ hle => lexemeLength_append hg r hle) hpos

/-- If an operator starts behind a text, reading starts anew there, whatever the operator is. -/
theorem tokenizeFrom_append_operator {w y : Text} {g : Char} (hg : isOperatorStart g = true)
    {pos : Nat} {S : List Token} (h : tokenizeFrom pos 0 (w ++ g :: y) = tokenizeFrom pos 0 w ++ S)
    (r : Text) : tokenizeFrom pos 0 (w ++ g :: r) =
      tokenizeFrom pos 0 w ++ tokenizeFrom (pos + Text.size w) 0 (g :: r) :=
  tokenizeFrom_append_of_lexemes (fun _ _ hle => lexemeLength_append_operator hg r hle) h

end CrossShell
