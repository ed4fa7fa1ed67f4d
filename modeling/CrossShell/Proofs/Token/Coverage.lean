import CrossShell.Proofs.Token.Spans

/-!
# Reading loses nothing and invents nothing

The tokens of a line are slices of it, in order, with only gaps around them. An operator character
that is part of a larger token is protected there.

* `lexemeLength_cases`: the kinds of tokens that reading gives.
* `Protection`: what the quotes and backslashes before a character do to it.
* `tokenize_coverage`: the tokens of a line, and what stands outside of them.
-/

namespace CrossShell

/-! ## The kinds of tokens -/

/-- An operator character behind a backslash or a backtick, or a connector whose two characters stand
behind backticks. -/
def IsProtectedOperator (v : Text) : Prop :=
  (∃ c, isOperatorStart c = true ∧ (v = ['\\', c] ∨ v = ['\x60', c])) ∨
    v = ['\x60', '&', '\x60', '&'] ∨ v = ['\x60', '|', '\x60', '|']

/-- What starts with an operator character is an operator or a lone `&`. -/
theorem operatorAt?_cases {c : Char} (h : isOperatorStart c = true) (cs : Text) :
    (∃ op ∈ operators, op <+: c :: cs ∧ operatorAt? (c :: cs) = some op) ∨
      c = '&' ∧ operatorAt? (c :: cs) = none := by
  cases hop : operatorAt? (c :: cs) with
  | some op =>
    have hpre := List.find?_some hop
    exact .inl ⟨op, List.mem_of_find?_eq_some hop, List.isPrefixOf_iff_prefix.mp hpre, rfl⟩
  | none =>
    refine .inr ⟨?_, rfl⟩
    have hsingle : ∀ d, isOperatorStart d = true → d ≠ '&' → [d] ∈ operators := by
      intro d hd hne
      rw [operators_eq]
      rcases isOperatorStart_iff.mp hd with rfl | rfl | rfl | rfl | rfl | rfl | rfl | rfl | rfl <;>
        simp at hne ⊢
    by_contra hne
    have hnot := List.find?_eq_none.mp hop [c] (hsingle c h hne)
    simp at hnot

/-- The token at the start of a text is a quoted run, a protected operator, an operator, a lone `&`,
or a word. -/
theorem lexemeLength_cases {c : Char} (hg : isGap c = false) (cs : Text) :
    (∃ q, Quote.ofChar? c = some q ∧ lexemeLength c cs = quotedLength q cs + 1) ∨
    (Quote.ofChar? c = none ∧ IsProtectedOperator ((c :: cs).take (lexemeLength c cs))) ∨
    (Quote.ofChar? c = none ∧ (c :: cs).take (lexemeLength c cs) ∈ operators) ∨
    (c = '&' ∧ (c :: cs).take (lexemeLength c cs) = ['&']) ∨
    isOperatorStart c = false ∧ Quote.ofChar? c = none ∧
      lexemeLength c cs = wordLength none (c :: cs) := by
  cases hq : Quote.ofChar? c with
  | some q => exact .inl ⟨q, rfl, by simp [lexemeLength, hq]⟩
  | none =>
    right
    by_cases hs : c = '\\' ∧ startsOperator cs = true
    · obtain ⟨rfl, hs⟩ := hs
      obtain ⟨d, ds, rfl, hd⟩ := exists_of_startsOperator hs
      refine .inl ⟨rfl, .inl ⟨d, hd, .inl ?_⟩⟩
      rw [lexemeLength_backslash hs]
      rfl
    by_cases ht : c = '\x60' ∧ startsOperator cs = true
    · obtain ⟨rfl, ht⟩ := ht
      obtain ⟨d, ds, rfl, hd⟩ := exists_of_startsOperator ht
      refine .inl ⟨rfl, ?_⟩
      by_cases hand : ['&', '\x60', '&'] <+: d :: ds
      · refine .inr (.inl ?_)
        obtain ⟨rest, hrest⟩ := hand
        rw [← hrest]
        rfl
      by_cases hor : ['|', '\x60', '|'] <+: d :: ds
      · refine .inr (.inr ?_)
        obtain ⟨rest, hrest⟩ := hor
        rw [← hrest]
        rfl
      · refine .inl ⟨d, hd, .inr ?_⟩
        rw [lexemeLength_backtick ht, if_neg (not_or.mpr ⟨hand, hor⟩)]
        rfl
    cases hc : isOperatorStart c with
    | false =>
      have hpos := wordLength_none_pos (c := c) (by rw [hg, hc]; rfl) cs
      refine .inr (.inr (.inr ⟨rfl, rfl, ?_⟩))
      rw [lexemeLength_word hc hq hs ht]
      omega
    | true =>
      rcases operatorAt?_cases hc cs with ⟨op, hop, hpre, hfound⟩ | ⟨rfl, hnone⟩
      · refine .inr (.inl ⟨rfl, ?_⟩)
        have hlength : lexemeLength c cs = op.length := by
          simp [lexemeLength, hq, hs, ht, hfound]
        rwa [hlength, ← List.prefix_iff_eq_take.mp hpre]
      · refine .inr (.inr (.inl ⟨rfl, ?_⟩))
        have hword : wordLength none ('&' :: cs) = 0 := wordLength_of_ends (by decide) cs
        have hlength : lexemeLength '&' cs = 1 := by
          simp [lexemeLength, hq, hnone, hword]
        rw [hlength]
        rfl

/-! ## Quotes and backslashes -/

/-- What the quotes and backslashes in front of a character do to it. -/
structure Protection where
  /-- The quote that is open. -/
  quote : Option Quote
  /-- A backslash stands directly in front, and is not protected itself. -/
  escaped : Bool
  deriving DecidableEq, Repr

namespace Protection

/-- Nothing is open. -/
def none : Protection := ⟨.none, false⟩

/-- The protection behind a character. Between single quotes a backslash is a character like any
other. -/
def step (p : Protection) (c : Char) : Protection :=
  if p.escaped then ⟨p.quote, false⟩
  else if c = '\\' ∧ p.quote ≠ some .single then ⟨p.quote, true⟩
  else match p.quote with
    | .none => ⟨Quote.ofChar? c, false⟩
    | some q => if c = q.char then none else p

/-- The protection behind a text. -/
def after (p : Protection) (t : Text) : Protection := t.foldl step p

@[simp] theorem after_nil (p : Protection) : p.after [] = p := rfl

@[simp] theorem after_cons (p : Protection) (c : Char) (t : Text) :
    p.after (c :: t) = (p.step c).after t := rfl

theorem step_escaped (o : Option Quote) (c : Char) : step ⟨o, true⟩ c = ⟨o, false⟩ := rfl

theorem step_backslash {o : Option Quote} (h : o ≠ some .single) :
    step ⟨o, false⟩ '\\' = ⟨o, true⟩ := by
  simp [step, h]

theorem step_outside {c : Char} (h : c ≠ '\\') : step none c = ⟨Quote.ofChar? c, false⟩ := by
  simp [step, none, h]

theorem step_inside {q : Quote} {c : Char} (h : ¬(q = .double ∧ c = '\\')) (hc : c ≠ q.char) :
    step ⟨some q, false⟩ c = ⟨some q, false⟩ := by
  have hesc : ¬(c = '\\' ∧ some q ≠ some Quote.single) := by
    rintro ⟨rfl, hq⟩
    cases q with
    | single => exact hq rfl
    | double => exact h ⟨rfl, rfl⟩
  simp only [step, Bool.false_eq_true, ↓reduceIte, if_neg hesc, if_neg hc]

theorem step_close (q : Quote) : step ⟨some q, false⟩ q.char = none := by
  cases q <;> rfl

/-- Behind a backslash that is not protected stands that backslash. -/
theorem getLast?_of_escaped {p : Protection} {t : Text} (hp : p.escaped = false)
    (h : (p.after t).escaped = true) : t.getLast? = some '\\' := by
  rcases List.eq_nil_or_concat t with rfl | ⟨t, c, rfl⟩
  · rw [after_nil, hp] at h
    cases h
  · rw [List.concat_eq_append] at h ⊢
    have hstep : ((p.after t).step c).escaped = true := by simpa [after] using h
    rw [List.getLast?_concat]
    unfold step at hstep
    split at hstep
    · cases hstep
    · split at hstep
      · rename_i hc
        rw [hc.1]
      · split at hstep
        · cases hstep
        · split at hstep
          · cases hstep
          · contradiction

/-- A character that something protects. -/
def Hides (p : Protection) : Prop := p.quote.isSome = true ∨ p.escaped = true

end Protection

/-- Inside of a quoted run, the quote stays open up to the character that closes it. -/
theorem quote_after_of_quotedLength {q : Quote} {cs u v : Text} {e : Char} (h : cs = u ++ e :: v)
    (hlt : u.length < quotedLength q cs) :
    ((Protection.mk (some q) false).after u).quote = some q := by
  fun_induction quotedLength q cs generalizing u with
  | case1 => simp at h
  | case2 c =>
    obtain rfl : u = [] := List.eq_nil_of_length_eq_zero (by omega)
    rfl
  | case3 c d cs hc ih =>
    obtain ⟨rfl, rfl⟩ := hc
    rcases List.cons_eq_append_iff.mp h with ⟨rfl, -⟩ | ⟨u, rfl, hrest⟩
    · rfl
    rw [Protection.after_cons, Protection.step_backslash (by simp)]
    rcases List.cons_eq_append_iff.mp hrest with ⟨rfl, -⟩ | ⟨u, rfl, htail⟩
    · rfl
    rw [Protection.after_cons, Protection.step_escaped]
    exact ih htail (by simpa using hlt)
  | case4 d cs hq =>
    obtain rfl : u = [] := List.eq_nil_of_length_eq_zero (by omega)
    rfl
  | case5 c d cs hq hc ih =>
    rcases List.cons_eq_append_iff.mp h with ⟨rfl, -⟩ | ⟨u, rfl, hrest⟩
    · rfl
    rw [Protection.after_cons, Protection.step_inside hq hc]
    exact ih hrest (by simpa using hlt)

/-- Inside of a word, every gap and every operator character is quoted or stands behind a
backslash. -/
theorem hides_of_wordLength {o : Option Quote} {cs u v : Text} {e : Char} (h : cs = u ++ e :: v)
    (he : (isGap e || isOperatorStart e) = true) (hlt : u.length < wordLength o cs) :
    ((Protection.mk o false).after u).Hides := by
  fun_induction wordLength o cs generalizing u with
  | case1 => simp at h
  | case2 c hc => omega
  | case3 c hc =>
    obtain rfl : u = [] := List.eq_nil_of_length_eq_zero (by omega)
    obtain ⟨rfl, -⟩ := List.cons.inj h
    simp [he] at hc
  | case4 q c =>
    obtain rfl : u = [] := List.eq_nil_of_length_eq_zero (by omega)
    exact .inl rfl
  | case5 c d cs hc => omega
  | case6 d cs hc ih =>
    rcases List.cons_eq_append_iff.mp h with ⟨rfl, heq⟩ | ⟨u, rfl, hrest⟩
    · obtain ⟨rfl, -⟩ := List.cons.inj heq
      cases he
    rw [Protection.after_cons, Protection.step_backslash (by simp)]
    rcases List.cons_eq_append_iff.mp hrest with ⟨rfl, -⟩ | ⟨u, rfl, htail⟩
    · exact .inr rfl
    rw [Protection.after_cons, Protection.step_escaped]
    exact ih htail (by simpa using hlt)
  | case7 c d cs hc hs ih =>
    rcases List.cons_eq_append_iff.mp h with ⟨rfl, heq⟩ | ⟨u, rfl, hrest⟩
    · obtain ⟨rfl, -⟩ := List.cons.inj heq
      simp [he] at hc
    have hstep : Protection.step ⟨none, false⟩ c = ⟨Quote.ofChar? c, false⟩ :=
      Protection.step_outside hs
    rw [Protection.after_cons, hstep]
    exact ih hrest (by simpa using hlt)
  | case8 q c d cs hc ih =>
    obtain ⟨rfl, rfl⟩ := hc
    rcases List.cons_eq_append_iff.mp h with ⟨rfl, -⟩ | ⟨u, rfl, hrest⟩
    · exact .inl rfl
    rw [Protection.after_cons, Protection.step_backslash (by simp)]
    rcases List.cons_eq_append_iff.mp hrest with ⟨rfl, -⟩ | ⟨u, rfl, htail⟩
    · exact .inl rfl
    rw [Protection.after_cons, Protection.step_escaped]
    exact ih htail (by simpa using hlt)
  | case9 q d cs hq ih =>
    rcases List.cons_eq_append_iff.mp h with ⟨rfl, -⟩ | ⟨u, rfl, hrest⟩
    · exact .inl rfl
    rw [Protection.after_cons, Protection.step_close]
    exact ih hrest (by simpa using hlt)
  | case10 q c d cs hq hc ih =>
    rcases List.cons_eq_append_iff.mp h with ⟨rfl, -⟩ | ⟨u, rfl, hrest⟩
    · exact .inl rfl
    rw [Protection.after_cons, Protection.step_inside hq hc]
    exact ih hrest (by simpa using hlt)

/-! ## Operator characters -/

theorem mem_tokenizeFrom_cases {pos : Nat} {text : Text} {t : Token}
    (h : t ∈ tokenizeFrom pos 0 text) :
    ∃ pos' c cs, isGap c = false ∧ t = lexeme pos' c cs := by
  induction hn : text.length using Nat.strongRecOn generalizing pos text with
  | ind n ih =>
    cases text with
    | nil => cases h
    | cons c cs =>
      cases hc : isGap c with
      | true =>
        rw [tokenizeFrom_cons_of_isGap hc] at h
        exact ih cs.length (by simp at hn; omega) h rfl
      | false =>
        rw [tokenizeFrom_cons_of_not_isGap hc] at h
        rcases List.mem_cons.mp h with rfl | h
        · exact ⟨pos, c, cs, hc, rfl⟩
        · have hpos := lexemeLength_pos c cs
          exact ih _ (by simp at hn ⊢; omega) h rfl

/-- A token with an operator character is an operator, a lone `&` or a protected operator, unless
something in the token protects the character. -/
theorem operator_char_cases {pos : Nat} {c : Char} (hg : isGap c = false) {cs u v : Text} {e : Char}
    (hvalue : (lexeme pos c cs).value = u ++ e :: v) (he : isOperatorStart e = true) :
    (lexeme pos c cs).isOperator = true ∨ (lexeme pos c cs).isBare ['&'] = true ∨
      IsProtectedOperator (lexeme pos c cs).value ∨ (Protection.none.after u).Hides := by
  have htake : (c :: cs).take (lexemeLength c cs) = u ++ e :: v := hvalue
  have hcs : c :: cs = u ++ e :: (v ++ (c :: cs).drop (lexemeLength c cs)) := by
    conv => lhs; rw [← List.take_append_drop (lexemeLength c cs) (c :: cs), htake]
    simp
  have hlt : u.length < lexemeLength c cs := by
    have hlength := congrArg List.length htake
    simp only [List.length_take, List.length_append, List.length_cons] at hlength
    omega
  rcases lexemeLength_cases hg cs with
    ⟨q, hq, hlength⟩ | ⟨-, hform⟩ | ⟨hq, hform⟩ | ⟨rfl, hform⟩ | ⟨-, hq, hlength⟩
  · -- The quote that opens the token stays open up to its last character.
    refine .inr (.inr (.inr (.inl ?_)))
    cases u with
    | nil =>
      obtain ⟨rfl, -⟩ := List.cons.inj hcs
      rw [isOperatorStart_of_quote hq] at he
      cases he
    | cons a u =>
      obtain ⟨rfl, hrest⟩ := List.cons.inj hcs
      have hslash : c ≠ '\\' := by
        rintro rfl
        cases hq
      rw [Protection.after_cons, Protection.step_outside hslash, hq]
      rw [quote_after_of_quotedLength hrest (by rw [hlength, List.length_cons] at hlt; omega)]
      rfl
  · exact .inr (.inr (.inl hform))
  · refine .inl ?_
    rw [Token.isOperator, Bool.and_eq_true]
    exact ⟨by rw [lexeme, hq]; rfl, List.contains_iff_mem.mpr hform⟩
  · refine .inr (.inl ?_)
    rw [Token.isBare, Bool.and_eq_true]
    exact ⟨rfl, beq_iff_eq.mpr hform⟩
  · exact .inr (.inr (.inr (hides_of_wordLength hcs (by simp [he]) (hlength ▸ hlt))))

/-- **Reading loses nothing and invents nothing.** The tokens of a line are slices of it between
two of its characters, in order and none of them empty. A byte outside of all tokens is a gap. An
operator character in a token makes it an operator, a lone `&` or a protected operator, or else it
stands in a quoted run of the token or directly behind a backslash that is not protected itself. -/
theorem tokenize_coverage (line : Text) :
    InOrder (tokenize line) ∧
      (∀ t ∈ tokenize line, Text.IsBoundary line t.start ∧ Text.IsBoundary line t.stop ∧
        t.value = Text.slice t.start t.stop line) ∧
      (∀ b < Text.size line, (∀ t ∈ tokenize line, ¬(t.start ≤ b ∧ b < t.stop)) →
        ∃ u c v, line = u ++ c :: v ∧ Text.size u = b ∧ isGap c = true) ∧
      ∀ t ∈ tokenize line, ∀ u c v, t.value = u ++ c :: v → isOperatorStart c = true →
        t.isOperator = true ∨ t.isBare ['&'] = true ∨ IsProtectedOperator t.value ∨
          (Protection.none.after u).quote.isSome = true ∨
          (Protection.none.after u).escaped = true ∧ u.getLast? = some '\\' := by
  refine ⟨inOrder_tokenizeFrom 0 line, ?_, ?_, ?_⟩
  · intro t ht
    obtain ⟨u, v, hline, hstart, hstop⟩ := exists_eq_append_of_mem_tokenize ht
    refine ⟨⟨u, t.value ++ v, by rw [hline, List.append_assoc], hstart⟩,
      ⟨u ++ t.value, v, hline, by rw [Text.size_append, hstop]⟩, ?_⟩
    rw [hline, hstart, hstop, List.append_assoc, Text.slice_append]
  · intro b hb houtside
    obtain ⟨a, cuts, rfl, hplaced, htokens, ha, hcuts⟩ := exists_placed_tokenizeFrom 0 line
    rcases hplaced.covers ha hcuts hb with ⟨t, ht, hcover⟩ | hgap
    · rw [htokens] at ht
      exact absurd (by simpa using hcover) (houtside t ht)
    · exact hgap
  · intro t ht u c v hvalue hc
    obtain ⟨pos, d, ds, hd, rfl⟩ := mem_tokenizeFrom_cases ht
    rcases operator_char_cases hd hvalue hc with h | h | h | h | h
    · exact .inl h
    · exact .inr (.inl h)
    · exact .inr (.inr (.inl h))
    · exact .inr (.inr (.inr (.inl h)))
    · exact .inr (.inr (.inr (.inr ⟨h, Protection.getLast?_of_escaped rfl h⟩)))

/-- A word with a protected character of two bytes and a quoted operator in it, an operator
directly behind it, a protected connector, and a quote that is not closed. -/
def mixedLine : Text := "x\\é\"a;b\"&\t`|`| 'c".toList

theorem tokenize_coverage_mixedLine :
    tokenize mixedLine =
        [⟨"x\\é\"a;b\"".toList, 0, 9, none⟩, ⟨['&'], 9, 10, none⟩,
          ⟨['\x60', '|', '\x60', '|'], 11, 15, none⟩, ⟨"'c".toList, 16, 18, some .single⟩] ∧
      InOrder (tokenize mixedLine) ∧
      (∃ u c v, mixedLine = u ++ c :: v ∧ Text.size u = 10 ∧ isGap c = true) ∧
      (Protection.none.after ['x', '\\', 'é', '"', 'a']).quote.isSome = true := by
  have htokens : tokenize mixedLine =
      [⟨"x\\é\"a;b\"".toList, 0, 9, none⟩, ⟨['&'], 9, 10, none⟩,
        ⟨['\x60', '|', '\x60', '|'], 11, 15, none⟩, ⟨"'c".toList, 16, 18, some .single⟩] := by
    decide +kernel
  obtain ⟨horder, -, hgaps, hoperators⟩ := tokenize_coverage mixedLine
  refine ⟨htokens, horder, hgaps 10 (by decide +kernel) ?_, ?_⟩
  · rw [htokens]
    decide
  · have hfirst : ⟨"x\\é\"a;b\"".toList, 0, 9, none⟩ ∈ tokenize mixedLine := by
      rw [htokens]
      exact List.mem_cons_self
    rcases hoperators _ hfirst ['x', '\\', 'é', '"', 'a'] ';' ['b', '"'] (by decide) (by decide) with
      h | h | h | h | h
    · revert h; decide +kernel
    · revert h; decide
    · revert h
      rintro (⟨c, -, h | h⟩ | h | h) <;> cases h
    · exact h
    · revert h; decide

end CrossShell
