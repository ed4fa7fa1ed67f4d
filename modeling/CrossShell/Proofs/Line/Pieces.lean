import CrossShell.Line.Split

/-!
# Where the tokens of a line stand

A line is its tokens and what stands between them. `ofCuts a cuts` puts such pieces together, and
`Placed pos a cuts` says that each token knows its place in the result, which starts at byte `pos`.

* `exists_placed_tokenizeFrom`: reading a text places its tokens in it, with gaps between them.
* `Placed.sublist`: some of the tokens are placed too, with more between them.
* `chunks_ofCuts`: cutting at placed tokens gives back what stands between them.
-/

namespace CrossShell

/-- The text of some tokens and what stands before them (`a`) and behind each. -/
def ofCuts (a : Text) (cuts : List (Token × Text)) : Text :=
  a ++ cuts.flatMap fun cut => cut.1.value ++ cut.2

@[simp] theorem ofCuts_nil (a : Text) : ofCuts a [] = a := by simp [ofCuts]

@[simp] theorem ofCuts_cons (a : Text) (t : Token) (b : Text) (cuts : List (Token × Text)) :
    ofCuts a ((t, b) :: cuts) = a ++ t.value ++ ofCuts b cuts := by
  simp [ofCuts]

theorem ofCuts_append_left (x a : Text) (cuts : List (Token × Text)) :
    ofCuts (x ++ a) cuts = x ++ ofCuts a cuts := by
  simp [ofCuts]

/-- The bytes that each token covers are those of its text, in a text that starts at byte `pos`. -/
def Placed : (pos : Nat) → (a : Text) → List (Token × Text) → Prop
  | _, _, [] => True
  | pos, a, (t, b) :: cuts =>
    t.start = pos + Text.size a ∧ t.stop = t.start + Text.size t.value ∧ Placed t.stop b cuts

/-- Only the place behind the leading text matters. -/
theorem Placed.of_size {pos pos' : Nat} {a a' : Text} {cuts : List (Token × Text)}
    (h : pos + Text.size a = pos' + Text.size a') (hp : Placed pos a cuts) :
    Placed pos' a' cuts := by
  cases cuts with
  | nil => trivial
  | cons cut cuts =>
    obtain ⟨h1, h2, h3⟩ := hp
    exact ⟨h1.trans h, h2, h3⟩

/-! ## Reading places the tokens -/

theorem tokenizeFrom_cons_of_isGap {c : Char} (h : isGap c = true) (pos : Nat) (cs : Text) :
    tokenizeFrom pos 0 (c :: cs) = tokenizeFrom (pos + c.utf8Size) 0 cs := by
  simp [tokenizeFrom, h]

theorem lexemeLength_pos (c : Char) (cs : Text) : 0 < lexemeLength c cs := by
  unfold lexemeLength
  split
  · omega
  · split
    · omega
    · split
      · split <;> omega
      · split
        · rename_i op hop
          have hlength : ∀ op ∈ operators, 0 < op.length := by decide
          exact hlength op (List.mem_of_find?_eq_some hop)
        · omega

/-- Behind a token, reading starts anew. -/
theorem tokenizeFrom_cons_of_not_isGap {c : Char} (h : isGap c = false) (pos : Nat) (cs : Text) :
    tokenizeFrom pos 0 (c :: cs) = lexeme pos c cs ::
      tokenizeFrom (lexeme pos c cs).stop 0 ((c :: cs).drop (lexemeLength c cs)) := by
  obtain ⟨n, hn⟩ : ∃ n, lexemeLength c cs = n + 1 :=
    ⟨lexemeLength c cs - 1, by have := lexemeLength_pos c cs; omega⟩
  simp only [tokenizeFrom, h, Bool.false_eq_true, ↓reduceIte, lexeme]
  rw [tokenizeFrom_skip, hn]
  simp [Nat.add_assoc]

/-- Reading a text that starts at byte `pos` places its tokens in it, and between them there are
only gaps. -/
theorem exists_placed_tokenizeFrom (pos : Nat) (text : Text) :
    ∃ a cuts, ofCuts a cuts = text ∧ Placed pos a cuts ∧
      cuts.map Prod.fst = tokenizeFrom pos 0 text ∧
      a.all isGap = true ∧ ∀ cut ∈ cuts, cut.2.all isGap = true := by
  induction hn : text.length using Nat.strongRecOn generalizing pos text with
  | ind n ih =>
    cases text with
    | nil => exact ⟨[], [], rfl, trivial, rfl, rfl, by simp⟩
    | cons c cs =>
      cases hc : isGap c with
      | true =>
        obtain ⟨a, cuts, rfl, hp, hm, ha, hcuts⟩ :=
          ih cs.length (by simp at hn; omega) (pos + c.utf8Size) cs rfl
        refine ⟨c :: a, cuts, rfl, ?_, ?_, by simp [hc, ha], hcuts⟩
        · exact Placed.of_size (by simp [Nat.add_assoc]) hp
        · rw [tokenizeFrom_cons_of_isGap hc, hm]
      | false =>
        have hpos := lexemeLength_pos c cs
        obtain ⟨a, cuts, hr, hp, hm, ha, hcuts⟩ :=
          ih ((c :: cs).drop (lexemeLength c cs)).length
            (by simp at hn ⊢; omega) (lexeme pos c cs).stop _ rfl
        refine ⟨[], (lexeme pos c cs, a) :: cuts, ?_, ⟨rfl, rfl, hp⟩, ?_, rfl, ?_⟩
        · rw [ofCuts_cons, hr]
          simp only [lexeme, List.nil_append]
          exact List.take_append_drop _ _
        · rw [tokenizeFrom_cons_of_not_isGap hc, List.map_cons, hm]
        · simp only [List.mem_cons, forall_eq_or_imp]
          exact ⟨ha, hcuts⟩

/-! ## Some of the tokens -/

/-- Some of the tokens of a text are placed as well: what stood around the others now stands
between them. -/
theorem Placed.sublist {ts : List Token} {pos : Nat} {a : Text} {cuts : List (Token × Text)}
    (hp : Placed pos a cuts) (hs : ts.Sublist (cuts.map Prod.fst)) :
    ∃ a' cuts', ofCuts a' cuts' = ofCuts a cuts ∧ Placed pos a' cuts' ∧
      cuts'.map Prod.fst = ts := by
  induction cuts generalizing pos a ts with
  | nil =>
    obtain rfl : ts = [] := by simpa using hs
    exact ⟨a, [], rfl, trivial, rfl⟩
  | cons cut cuts ih =>
    obtain ⟨t, b⟩ := cut
    obtain ⟨h1, h2, h3⟩ := hp
    cases hs with
    | cons _ hs =>
      obtain ⟨a', cuts', ho, hp', hm⟩ := ih h3 hs
      refine ⟨a ++ t.value ++ a', cuts', ?_, ?_, hm⟩
      · rw [ofCuts_append_left, ho, ofCuts_cons]
      · exact Placed.of_size (by simp [h1, h2, Nat.add_assoc]) hp'
    | cons_cons _ hs =>
      obtain ⟨b', cuts', ho, hp', hm⟩ := ih h3 hs
      exact ⟨a, (t, b') :: cuts', by rw [ofCuts_cons, ofCuts_cons, ho], ⟨h1, h2, hp'⟩, by simp [hm]⟩

/-- A cutter with a stricter test keeps those separators that pass it. -/
theorem separators_ofTest_filter {test test' : Token → Bool}
    (h : ∀ t, test' t = true → test t = true) (n : Nesting) (ts : List Token) :
    separators (.ofTest test') n () ts = (separators (.ofTest test) n () ts).filter test' := by
  induction ts generalizing n with
  | nil => rfl
  | cons t ts ih =>
    have hcuts : ∀ (test : Token → Bool), (Cutter.ofTest test).cuts () t = test t := fun _ => rfl
    simp only [separators, hcuts, ih]
    by_cases ht' : test' t = true
    · simp [ht', h t ht', apply_ite (List.filter test')]
    · simp [ht', apply_ite (List.filter test')]

/-- Every separator that a cutter chose passes its test. -/
theorem separators_ofTest_test {test : Token → Bool} {n : Nesting} {ts : List Token} {t : Token}
    (h : t ∈ separators (.ofTest test) n () ts) : test t = true := by
  have hfilter : separators (.ofTest test) n () ts =
      (separators (.ofTest test) n () ts).filter test :=
    separators_ofTest_filter (fun _ ht => ht) n ts
  rw [hfilter] at h
  exact (List.mem_filter.mp h).2

theorem separators_sublist {σ : Type} (cutter : Cutter σ) (n : Nesting) (s : σ) (ts : List Token) :
    (separators cutter n s ts).Sublist ts := by
  induction ts generalizing n s with
  | nil => exact List.Sublist.refl _
  | cons t ts ih =>
    unfold separators
    simp only []
    split
    · split
      · exact (ih _ _).cons_cons t
      · exact (ih _ _).cons t
    · exact (ih _ _).cons t

/-! ## The tokens that pass a test -/

/-- The tokens that pass a test, and what stands between them now. -/
def keepCuts (test : Token → Bool) : (a : Text) → List (Token × Text) → Text × List (Token × Text)
  | a, [] => (a, [])
  | a, (t, b) :: cuts =>
    let kept := keepCuts test b cuts
    if test t then (a, (t, kept.1) :: kept.2) else (a ++ t.value ++ kept.1, kept.2)

theorem ofCuts_keepCuts (test : Token → Bool) (a : Text) (cuts : List (Token × Text)) :
    ofCuts (keepCuts test a cuts).1 (keepCuts test a cuts).2 = ofCuts a cuts := by
  induction cuts generalizing a with
  | nil => rfl
  | cons cut cuts ih =>
    obtain ⟨t, b⟩ := cut
    rw [keepCuts]
    split
    · simp only [ofCuts_cons, ih]
    · rw [ofCuts_append_left, ih, ofCuts_cons]

theorem map_fst_keepCuts (test : Token → Bool) (a : Text) (cuts : List (Token × Text)) :
    (keepCuts test a cuts).2.map Prod.fst = (cuts.map Prod.fst).filter test := by
  induction cuts generalizing a with
  | nil => rfl
  | cons cut cuts ih =>
    obtain ⟨t, b⟩ := cut
    rw [keepCuts]
    split <;> simp_all

theorem Placed.keepCuts {pos : Nat} {a : Text} {cuts : List (Token × Text)}
    (hp : Placed pos a cuts) (test : Token → Bool) :
    Placed pos (CrossShell.keepCuts test a cuts).1 (CrossShell.keepCuts test a cuts).2 := by
  induction cuts generalizing pos a with
  | nil => trivial
  | cons cut cuts ih =>
    obtain ⟨t, b⟩ := cut
    obtain ⟨h1, h2, h3⟩ := hp
    rw [CrossShell.keepCuts]
    split
    · exact ⟨h1, h2, ih h3⟩
    · have hrest := ih h3
      generalize CrossShell.keepCuts test b cuts = kept at hrest ⊢
      obtain ⟨a', cuts'⟩ := kept
      exact Placed.of_size (by simp [h1, h2, Nat.add_assoc]) hrest

/-! ## Cutting -/

/-- What stands between the tokens, as chunks. -/
def piecesOf : (a : Text) → List (Token × Text) → List Chunk
  | a, [] => [⟨Text.trim a, none⟩]
  | a, (t, b) :: cuts => ⟨Text.trim a, some t.value⟩ :: piecesOf b cuts

/-- Cutting a line at placed tokens gives what stands between them. -/
theorem chunks_ofCuts (pre a : Text) (cuts : List (Token × Text))
    (hp : Placed (Text.size pre) a cuts) :
    chunks (pre ++ ofCuts a cuts) (Text.size pre) (cuts.map Prod.fst) = piecesOf a cuts := by
  induction cuts generalizing pre a with
  | nil => simp [chunks, piecesOf, Text.dropBytes_append]
  | cons cut cuts ih =>
    obtain ⟨t, b⟩ := cut
    obtain ⟨h1, h2, h3⟩ := hp
    have hline : pre ++ ofCuts a ((t, b) :: cuts) = (pre ++ a ++ t.value) ++ ofCuts b cuts := by
      simp
    have hstop : t.stop = Text.size (pre ++ a ++ t.value) := by simp [h1, h2, Nat.add_assoc]
    rw [List.map_cons, chunks, piecesOf]
    congr 1
    · rw [h1, ofCuts_cons, List.append_assoc a, Text.slice_append]
    · rw [hline, hstop]
      exact ih _ _ (hstop ▸ h3)

/-- The chunks of a line are what stands between its separators. -/
theorem exists_cutLine_eq {σ : Type} (cutter : Cutter σ) (s : σ) (line : Text) :
    ∃ a cuts, ofCuts a cuts = line ∧ Placed 0 a cuts ∧
      cuts.map Prod.fst = separators cutter .top s (tokenize line) ∧
      cutLine cutter s line = piecesOf a cuts := by
  obtain ⟨a, cuts, rfl, hp, hm, -, -⟩ := exists_placed_tokenizeFrom 0 line
  have hs := separators_sublist cutter .top s (tokenize (ofCuts a cuts))
  rw [tokenize, ← hm] at hs
  obtain ⟨a', cuts', ho, hp', hm'⟩ := hp.sublist hs
  refine ⟨a', cuts', ho, hp', by rw [tokenize, ← hm]; exact hm', ?_⟩
  have hc := chunks_ofCuts [] a' cuts' hp'
  rw [cutLine, tokenize, ← hm, ← hm', ← ho]
  exact hc

/-- Cutting with a stricter test gives back what stands between the separators it keeps. -/
theorem cutLine_keepCuts {test test' : Token → Bool} (h : ∀ t, test' t = true → test t = true)
    {a : Text} {cuts : List (Token × Text)} (hp : Placed 0 a cuts)
    (hm : cuts.map Prod.fst = separators (.ofTest test) .top () (tokenize (ofCuts a cuts))) :
    cutLine (.ofTest test') () (ofCuts a cuts) =
      piecesOf (keepCuts test' a cuts).1 (keepCuts test' a cuts).2 := by
  have hc := chunks_ofCuts [] _ _ (hp.keepCuts test')
  rw [map_fst_keepCuts, hm, ← separators_ofTest_filter h, List.nil_append, ofCuts_keepCuts] at hc
  exact hc

end CrossShell
