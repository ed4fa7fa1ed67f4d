import CrossShell.Proofs.Token.Cut
import Mathlib.Data.List.Forall2

/-!
# Where the chunks of a line lie

A chunk reaches from the end of one separator to the start of the next, and its tokens are those of
the line that lie there: no token of a line depends on what stands behind it.

* `chunkBounds`: the bytes between the separators.
* `separators_append`, `separators_eq_cons`: the separators of tokens, from the left.
* `IsPiece`: the part of a line between two separators. `forall₂_isPiece`: trimming these parts gives
  the chunks.
-/

namespace CrossShell

/-! ## Separators from the left -/

namespace Nesting

theorem eq_top_of_isTop {n : Nesting} (h : n.isTop = true) : n = .top := by
  obtain ⟨parens, braces⟩ := n
  rw [isTop, Bool.and_eq_true, beq_iff_eq, beq_iff_eq] at h
  rw [top, mk.injEq]
  exact h

/-- The nesting behind some tokens. -/
def after (n : Nesting) (ts : List Token) : Nesting := ts.foldl step n

@[simp] theorem after_nil (n : Nesting) : n.after [] = n := rfl

@[simp] theorem after_cons (n : Nesting) (t : Token) (ts : List Token) :
    n.after (t :: ts) = (n.step t).after ts := rfl

theorem after_concat (n : Nesting) (ts : List Token) (t : Token) :
    n.after (ts ++ [t]) = (n.after ts).step t := List.foldl_concat ..

end Nesting

/-- The state of a cutter behind some tokens, of which it is shown those outside of groups. -/
def Cutter.after {σ : Type} (cutter : Cutter σ) : Nesting → σ → List Token → σ
  | _, state, [] => state
  | nesting, state, t :: ts =>
    cutter.after (nesting.step t) (if (nesting.step t).isTop then cutter.next state t else state) ts

section

variable {σ : Type} {cutter : Cutter σ}

theorem separators_append (n : Nesting) (s : σ) (ts us : List Token) :
    separators cutter n s (ts ++ us) = separators cutter n s ts ++
      separators cutter (n.after ts) (cutter.after n s ts) us := by
  induction ts generalizing n s with
  | nil => rfl
  | cons t ts ih =>
    rw [List.cons_append, separators, separators, Nesting.after_cons, Cutter.after]
    by_cases htop : (n.step t).isTop = true
    · simp only [htop, ↓reduceIte, ih]
      split <;> simp only [List.cons_append]
    · simp only [htop, Bool.false_eq_true, ↓reduceIte, ih]

/-- The first separator, what stands in front of it, and what stands behind it. It is a token
outside of groups at which the cutter cuts. -/
theorem separators_eq_cons {n : Nesting} {s : σ} {ts ss : List Token} {t : Token}
    (h : separators cutter n s ts = t :: ss) :
    ∃ T S s', ts = T ++ t :: S ∧ separators cutter n s T = [] ∧
      separators cutter .top s' S = ss ∧ (n.after T).step t = .top ∧
      ∃ s'', cutter.cuts s'' t = true := by
  induction ts generalizing n s with
  | nil => cases h
  | cons u ts ih =>
    -- Whatever is no separator is put in front of what was found behind it.
    have hcons : ∀ {s₁ : σ}, separators cutter (n.step u) s₁ ts = t :: ss →
        (∀ T, separators cutter (n.step u) s₁ T = [] → separators cutter n s (u :: T) = []) →
        ∃ T S s', u :: ts = T ++ t :: S ∧ separators cutter n s T = [] ∧
          separators cutter .top s' S = ss ∧ (n.after T).step t = .top ∧
          ∃ s'', cutter.cuts s'' t = true := by
      intro s₁ hrest hfront
      obtain ⟨T, S, s', rfl, hT, hS, hcut⟩ := ih hrest
      exact ⟨u :: T, S, s', rfl, hfront T hT, hS, hcut⟩
    rw [separators] at h
    by_cases htop : (n.step u).isTop = true
    · rw [if_pos htop] at h
      by_cases hcut : cutter.cuts s u = true
      · rw [if_pos hcut, List.cons.injEq] at h
        obtain ⟨rfl, hss⟩ := h
        have hn := Nesting.eq_top_of_isTop htop
        rw [hn] at hss
        exact ⟨[], ts, _, rfl, rfl, hss, hn, s, hcut⟩
      · rw [if_neg hcut] at h
        exact hcons h fun T hT => by rw [separators, if_pos htop, if_neg hcut, hT]
    · rw [if_neg htop] at h
      exact hcons h fun T hT => by rw [separators, if_neg htop, hT]

end

/-! ## The bytes of a chunk -/

/-- Where the chunks of a line lie that is cut at the given tokens, from byte offset `start` on. -/
def chunkBounds (line : Text) : (start : Nat) → List Token → List (Nat × Nat)
  | start, [] => [(start, Text.size line)]
  | start, t :: ts => (start, t.start) :: chunkBounds line t.stop ts

/-- Whether a token lies between two offsets. -/
def Token.liesIn (bounds : Nat × Nat) (t : Token) : Bool :=
  bounds.1 ≤ t.start && t.stop ≤ bounds.2

/-- A part of a line between two separators of a cutter, and where it lies. -/
structure IsPiece {σ : Type} (cutter : Cutter σ) (line : Text) (bounds : Nat × Nat) (piece : Text) :
    Prop where
  /-- It is what the line has between these bounds. -/
  slice_eq : Text.slice bounds.1 bounds.2 line = piece
  /-- The tokens of the line that lie there are read from it alone. -/
  tokens_eq : (tokenize line).filter (Token.liesIn bounds) = tokenizeFrom bounds.1 0 piece
  /-- There is no separator among them. -/
  uncut : ∃ s, separators cutter .top s (tokenizeFrom bounds.1 0 piece) = []

/-- The tokens of a part of a line are the tokens of the line that lie in its bounds. -/
theorem filter_liesIn_tokenizeFrom {L R : List Token} {pos stop : Nat} {w : Text}
    (hL : ∀ t ∈ L, t.start < pos) (hR : ∀ t ∈ R, stop < t.stop) (hstop : pos + Text.size w = stop) :
    (L ++ tokenizeFrom pos 0 w ++ R).filter (Token.liesIn (pos, stop)) = tokenizeFrom pos 0 w := by
  have hleft : L.filter (Token.liesIn (pos, stop)) = [] := by
    refine List.filter_eq_nil_iff.mpr fun t ht h => ?_
    rw [Token.liesIn, Bool.and_eq_true, decide_eq_true_eq] at h
    have := hL t ht
    omega
  have hright : R.filter (Token.liesIn (pos, stop)) = [] := by
    refine List.filter_eq_nil_iff.mpr fun t ht h => ?_
    rw [Token.liesIn, Bool.and_eq_true, decide_eq_true_eq, decide_eq_true_eq] at h
    have := hR t ht
    omega
  have hmiddle : (tokenizeFrom pos 0 w).filter (Token.liesIn (pos, stop)) = tokenizeFrom pos 0 w := by
    refine List.filter_eq_self.mpr fun t ht => ?_
    have := bounds_of_mem_tokenizeFrom ht
    rw [Token.liesIn, Bool.and_eq_true, decide_eq_true_eq, decide_eq_true_eq]
    omega
  rw [List.filter_append, List.filter_append, hleft, hmiddle, hright, List.nil_append,
    List.append_nil]

/-- The tokens up to one of them start before it ends, and those from there on end behind its
start. -/
theorem start_lt_stop_of_tokenizeFrom_eq {pos : Nat} {text : Text} {T S : List Token} {t : Token}
    (h : tokenizeFrom pos 0 text = T ++ t :: S) :
    (∀ x ∈ T ++ [t], x.start < t.stop) ∧ ∀ x ∈ t :: S, t.start < x.stop := by
  have horder := inOrder_tokenizeFrom pos text
  rw [h] at horder
  have hpositive := horder.1 t (List.mem_append_right _ List.mem_cons_self)
  refine ⟨fun x hx => ?_, fun x hx => ?_⟩
  · rcases List.mem_append.mp hx with hx | hx
    · have := horder.append x hx t List.mem_cons_self
      have := horder.1 x (List.mem_append_left _ hx)
      omega
    · rwa [List.mem_singleton.mp hx]
  · rcases List.mem_cons.mp hx with rfl | hx
    · exact hpositive
    · have hlater := (List.pairwise_cons.mp (List.pairwise_append.mp horder.2).2.1).1 x hx
      have := horder.1 x (List.mem_append_right _ (List.mem_cons_of_mem _ hx))
      omega

/-- What stands between placed separators are pieces of the line. -/
theorem forall₂_isPiece_ofCuts {σ : Type} (cutter : Cutter σ) {line pre a : Text}
    {cuts : List (Token × Text)} {L : List Token} {s : σ} (hline : line = pre ++ ofCuts a cuts)
    (htokens : tokenize line = L ++ tokenizeFrom (Text.size pre) 0 (ofCuts a cuts))
    (hL : ∀ t ∈ L, t.start < Text.size pre) (hplaced : Placed (Text.size pre) a cuts)
    (hcuts : separators cutter .top s (tokenizeFrom (Text.size pre) 0 (ofCuts a cuts)) =
      cuts.map Prod.fst) :
    List.Forall₂ (IsPiece cutter line) (chunkBounds line (Text.size pre) (cuts.map Prod.fst))
      (a :: cuts.map Prod.snd) := by
  induction cuts generalizing pre a L s with
  | nil =>
    rw [ofCuts_nil] at hline htokens hcuts
    have hsize : Text.size pre + Text.size a = Text.size line := by rw [hline, Text.size_append]
    refine .cons ⟨?_, ?_, s, hcuts⟩ .nil
    · have hslice := Text.slice_append pre a []
      rwa [List.append_nil, ← hline, hsize] at hslice
    · rw [htokens, ← List.append_nil (L ++ _)]
      exact filter_liesIn_tokenizeFrom hL (by simp) hsize
  | cons cut cuts ih =>
    obtain ⟨t, b⟩ := cut
    obtain ⟨hstart, hstop, hrest⟩ := hplaced
    simp only [List.map_cons] at hcuts
    obtain ⟨T, S, s', hsplit, huncut, hbehind, -⟩ := separators_eq_cons hcuts
    -- The separator is a token, so both sides of it are read alone.
    obtain ⟨u, v, htext, hstart', -, hT, hS⟩ := tokenizeFrom_split hsplit
    rw [ofCuts_cons] at htext
    obtain ⟨rfl, rfl⟩ : a = u ∧ ofCuts b cuts = v := by
      rw [List.append_assoc, List.append_assoc] at htext
      obtain ⟨hau, hrest⟩ := append_inj_of_size htext (by omega)
      exact ⟨hau, List.append_cancel_left hrest⟩
    have hsize : t.stop = Text.size (pre ++ a ++ t.value) := by
      rw [Text.size_append, Text.size_append]
      omega
    obtain ⟨hbefore, hafter⟩ := start_lt_stop_of_tokenizeFrom_eq hsplit
    have hpieces : tokenize line = (L ++ T ++ [t]) ++ tokenizeFrom t.stop 0 (ofCuts b cuts) := by
      rw [htokens, hsplit, hS]
      simp only [List.append_assoc, List.singleton_append]
    refine .cons ⟨?_, ?_, s, by rwa [hT]⟩ ?_
    · show Text.slice (Text.size pre) t.start line = a
      rw [hline, hstart, ofCuts_cons, List.append_assoc a]
      exact Text.slice_append pre a _
    · rw [htokens, hsplit, ← hT, ← List.append_assoc]
      exact filter_liesIn_tokenizeFrom hL hafter hstart.symm
    · show List.Forall₂ _ (chunkBounds line t.stop (cuts.map Prod.fst)) (b :: cuts.map Prod.snd)
      rw [hsize] at hrest hpieces hS ⊢
      refine ih (by rw [hline, ofCuts_cons]; simp only [List.append_assoc]) hpieces ?_ hrest
        (hS ▸ hbehind)
      intro x hx
      rw [← hsize]
      rw [List.append_assoc] at hx
      rcases List.mem_append.mp hx with hx | hx
      · have := hL x hx
        have := hbefore t (List.mem_append_right T List.mem_cons_self)
        omega
      · exact hbefore x hx

theorem map_text_piecesOf (a : Text) (cuts : List (Token × Text)) :
    (piecesOf a cuts).map Chunk.text = (a :: cuts.map Prod.snd).map Text.trim := by
  induction cuts generalizing a with
  | nil => rfl
  | cons cut cuts ih =>
    obtain ⟨t, b⟩ := cut
    rw [piecesOf, List.map_cons, ih]
    rfl

/-- The chunks of a line are its pieces between separators, trimmed. -/
theorem forall₂_isPiece {σ : Type} (cutter : Cutter σ) (s : σ) (line : Text) :
    ∃ pieces, (cutLine cutter s line).map Chunk.text = pieces.map Text.trim ∧
      List.Forall₂ (IsPiece cutter line)
        (chunkBounds line 0 (separators cutter .top s (tokenize line))) pieces := by
  obtain ⟨a, cuts, hline, hplaced, hcuts, hchunks⟩ := exists_cutLine_eq cutter s line
  refine ⟨a :: cuts.map Prod.snd, by rw [hchunks, map_text_piecesOf], ?_⟩
  have htokens : tokenize line = [] ++ tokenizeFrom (Text.size []) 0 (ofCuts a cuts) := by
    rw [hline]
    rfl
  have hfirst : separators cutter .top s (tokenizeFrom (Text.size []) 0 (ofCuts a cuts)) =
      cuts.map Prod.fst := by
    rw [hcuts, htokens, List.nil_append]
  rw [← hcuts]
  exact forall₂_isPiece_ofCuts cutter hline.symm htokens nofun hplaced hfirst

theorem exists_rel_of_mem_right {α β : Type} {R : α → β → Prop} {as : List α} {bs : List β}
    (h : List.Forall₂ R as bs) {b : β} (hb : b ∈ bs) : ∃ a ∈ as, R a b := by
  induction h with
  | nil => cases hb
  | @cons x y as bs hxy _ ih =>
    rcases List.mem_cons.mp hb with rfl | hb
    · exact ⟨x, List.mem_cons_self, hxy⟩
    · obtain ⟨a, ha, hab⟩ := ih hb
      exact ⟨a, List.mem_cons_of_mem x ha, hab⟩

theorem exists_isPiece_of_mem_cutLine {σ : Type} {cutter : Cutter σ} {s : σ} {line : Text}
    {chunk : Chunk} (h : chunk ∈ cutLine cutter s line) :
    ∃ bounds piece, IsPiece cutter line bounds piece ∧ chunk.text = Text.trim piece := by
  obtain ⟨pieces, htexts, hpieces⟩ := forall₂_isPiece cutter s line
  have hmem : chunk.text ∈ pieces.map Text.trim := htexts ▸ List.mem_map_of_mem h
  obtain ⟨piece, hpiece, heq⟩ := List.mem_map.mp hmem
  obtain ⟨bounds, -, hp⟩ := exists_rel_of_mem_right hpieces hpiece
  exact ⟨bounds, piece, hp, heq.symm⟩

end CrossShell
