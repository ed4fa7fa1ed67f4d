import CrossShell.Proofs.Line.Composition
import CrossShell.Proofs.Token.Plain

/-!
# What is written behind a text

What follows a text may change its tokens, and its groups may take in what follows.

* `complete_of_mem_tokenize`: a token with another one behind it is complete, so its end does not
  depend on what follows.
* `closed_of_mem_fused`: a text is closed if some text behind it keeps its first token.
-/

namespace CrossShell

/-! ## Tokens that are complete -/

/-- A quoted run that ends before the text does ends in its quote. -/
theorem after_take_quotedLength {q : Quote} {t : Text} (h : quotedLength q t < t.length) :
    (Protection.mk (some q) false).after (t.take (quotedLength q t)) = .none := by
  fun_induction quotedLength q t with
  | case1 => cases h
  | case2 c => exact absurd h (Nat.lt_irrefl _)
  | case3 c d cs hslash ih =>
    obtain ⟨rfl, rfl⟩ := hslash
    simp only [List.length_cons] at h
    exact ih (by omega)
  | case4 d cs hslash =>
    rw [List.take_succ_cons, List.take_zero, Protection.after_cons, Protection.step_close,
      Protection.after_nil]
  | case5 c d cs hslash hclose ih =>
    simp only [List.length_cons] at h
    rw [List.take_succ_cons, Protection.after_cons, Protection.step_inside hslash hclose]
    exact ih (by simp only [List.length_cons]; omega)

/-- So does a word, of which nothing is left open. -/
theorem after_take_wordLength {o : Option Quote} {t : Text} (h : wordLength o t < t.length) :
    (Protection.mk o false).after (t.take (wordLength o t)) = .none := by
  fun_induction wordLength o t with
  | case1 => cases h
  | case2 c hends => rfl
  | case3 c hends => exact absurd h (Nat.lt_irrefl _)
  | case4 q c => exact absurd h (Nat.lt_irrefl _)
  | case5 c d cs hends => rfl
  | case6 d cs hends ih =>
    -- A backslash and the character behind it leave nothing open.
    simp only [List.length_cons] at h
    exact ih (by omega)
  | case7 c d cs hends hslash ih =>
    simp only [List.length_cons] at h
    have hstep : Protection.step ⟨none, false⟩ c = ⟨Quote.ofChar? c, false⟩ :=
      Protection.step_outside hslash
    rw [List.take_succ_cons, Protection.after_cons, hstep]
    exact ih (by simp only [List.length_cons]; omega)
  | case8 q c d cs hslash ih =>
    obtain ⟨rfl, rfl⟩ := hslash
    simp only [List.length_cons] at h
    exact ih (by omega)
  | case9 q d cs hslash ih =>
    simp only [List.length_cons] at h
    rw [List.take_succ_cons, Protection.after_cons, Protection.step_close]
    exact ih (by simp only [List.length_cons]; omega)
  | case10 q c d cs hslash hclose ih =>
    simp only [List.length_cons] at h
    rw [List.take_succ_cons, Protection.after_cons, Protection.step_inside hslash hclose]
    exact ih (by simp only [List.length_cons]; omega)

theorem Token.complete_of_protected {t : Token} (h : IsProtectedOperator t.value) : t.Complete := by
  rw [Token.Complete]
  obtain ⟨c, hc, hv | hv⟩ | hv | hv := h
  · rw [hv]
    rfl
  · have hne : c ≠ '\\' := by
      rintro rfl
      cases hc
    have hquote : Quote.ofChar? c = none := by
      cases hq : Quote.ofChar? c with
      | none => rfl
      | some q =>
        rw [isOperatorStart_of_quote hq] at hc
        cases hc
    rw [hv, Protection.after_cons, Protection.after_cons]
    show Protection.step Protection.none c = _
    rw [Protection.step_outside hne, hquote]
    rfl
  · rw [hv]
    decide
  · rw [hv]
    decide

/-- A token that ends before the text does is complete. -/
theorem complete_lexeme {c : Char} (hc : isGap c = false) {cs : Text}
    (h : lexemeLength c cs < (c :: cs).length) (pos : Nat) : (lexeme pos c cs).Complete := by
  have hvalue : (lexeme pos c cs).value = (c :: cs).take (lexemeLength c cs) := rfl
  rcases lexemeLength_cases hc cs with ⟨q, hq, hlength⟩ | ⟨-, hprotected⟩ | ⟨-, hoperator⟩ |
    ⟨-, hampersand⟩ | ⟨-, -, hlength⟩
  · have hne : c ≠ '\\' := by
      rintro rfl
      cases hq
    rw [hlength, List.length_cons] at h
    rw [Token.Complete, hvalue, hlength, List.take_succ_cons, Protection.after_cons,
      Protection.step_outside hne, hq]
    exact after_take_quotedLength (by omega)
  · exact Token.complete_of_protected hprotected
  · have hall : ∀ v ∈ operators, Protection.none.after v = .none := by decide
    exact hall _ hoperator
  · rw [Token.Complete, hvalue, hampersand]
    decide
  · rw [Token.Complete, hvalue, hlength]
    exact after_take_wordLength (by omega)

/-- A token with another one behind it is complete. -/
theorem complete_of_tokenizeFrom_eq {pos : Nat} {text : Text} {T S : List Token} {s : Token}
    (h : tokenizeFrom pos 0 text = T ++ s :: S) (hS : S ≠ []) : s.Complete := by
  induction hn : text.length using Nat.strongRecOn generalizing pos text T with
  | ind n ih =>
    cases text with
    | nil => simp [tokenizeFrom] at h
    | cons c cs =>
      cases hc : isGap c with
      | true =>
        rw [tokenizeFrom_cons_of_isGap hc] at h
        exact ih cs.length (by simp at hn; omega) h rfl
      | false =>
        rw [tokenizeFrom_cons_of_not_isGap hc] at h
        cases T with
        | nil =>
          obtain ⟨rfl, hrest⟩ := List.cons.inj h
          refine complete_lexeme hc (Nat.lt_of_not_le fun hle => hS ?_) pos
          rw [← hrest, List.drop_eq_nil_of_le hle, tokenizeFrom]
        | cons t T =>
          have hpos := lexemeLength_pos c cs
          exact ih _ (by simp at hn ⊢; omega) (List.cons.inj h).2 rfl

theorem complete_of_mem_tokenize {line : Text} {s t : Token} (hs : s ∈ tokenize line)
    (ht : t ∈ tokenize line) (h : s.stop ≤ t.start) : s.Complete := by
  obtain ⟨T, S, hsplit⟩ := List.append_of_mem hs
  have horder : InOrder (tokenize line) := inOrder_tokenizeFrom 0 line
  have hpos := horder.1 t ht
  have hpos' := horder.1 s hs
  refine complete_of_tokenizeFrom_eq hsplit fun hnil => ?_
  rw [hsplit, hnil] at ht horder
  rcases List.mem_append.mp ht with ht | ht
  · have := horder.append t ht s List.mem_cons_self
    omega
  · obtain rfl := List.mem_singleton.mp ht
    omega

/-! ## Closed texts -/

/-- A text is closed if something that opens no group and starts with a word, written behind it, has
its first token where it is written. -/
theorem closed_of_mem_fused {w r : Text} {x : Token} {S : List Token} (hc : CompleteBefore ' ' w)
    (hr : tokenizeFrom (Text.size w) 0 (' ' :: r) = x :: S) (hstart : x.start = Text.size w + 1)
    (hx : x.isOperator = false) (hsingle : ∀ s ∈ x :: S, s.Single)
    (h : ∃ u ∈ fused (w ++ ' ' :: r), u.start = x.start) : Closed w := by
  have hinside := inside_tokenize w
  have hread : tokenize (w ++ ' ' :: r) = tokenize w ++ x :: S := by
    rw [tokenize, tokenizeFrom_append hc (.inl ⟨by decide, by decide⟩), Nat.zero_add, hr]
    rfl
  have hS : ∀ s ∈ S, s.start ≠ x.start := by
    intro s hs
    have horder := inOrder_tokenizeFrom (Text.size w) (' ' :: r)
    rw [hr] at horder
    have hlt := horder.1 x List.mem_cons_self
    have hle : x.stop ≤ s.start := List.rel_of_pairwise_cons horder.2 hs
    omega
  have hgroups : ∃ v ∈ fuseWith Fusion.groups (w ++ ' ' :: r) (tokenize w ++ x :: S),
      v.start = x.start := by
    obtain ⟨u, hu, hsame⟩ := h
    rw [fused, hread, fuse_eq] at hu
    obtain ⟨⟨v, hv, hsame'⟩, -⟩ := exists_of_mem_coalesce hu
    exact ⟨v, hv, hsame'.trans hsame⟩
  have hcloses := closes_of_mem hinside hstart hx hS
    (fun _ hpass => Fusion.apply_eq_self hpass hsingle _) hgroups
  refine closed_of_closes hc (hcloses.concat ?_)
  exact fits_descriptorRedirection (Token.Inside.fuseWith _ hinside)

end CrossShell
