import CrossShell.Proofs.Line.Reread
import CrossShell.Proofs.Token.Trailing
import CrossShell.Proofs.Token.Units

/-!
# Errors that travel along a pipe

A stage that `|&` ends gets the merge `2>&1` behind its text, which was trimmed before. Blanks that
belong to a token are trimmed as well, and a backslash that protected one then protects the space
in front of the merge.

* `AddsMerge`: a stage has some tokens and those of the merge, which stand apart. `KeepsEnds`: the
  tokens have no blank at their ends.
* `KeepsEnds.tokenize_trim`: then trimming keeps the tokens. `AddsMerge.keepsEnds`: only then can the
  stage have them, since its text has no blank at its ends.
* `mem_fused_merge_iff`: the merge is fused to one token behind a closed text only.
* `merges_added_iff`: both for each stage of a segment that `|&` ends.
-/

namespace CrossShell

open Text

/-! ## The merge -/

/-- What is written for errors that travel along: they go where the output goes. -/
def mergeText : Text := ['2', '>', '&', '1']

/-- Its tokens at offset `n`. -/
def mergeTokens (n : Nat) : List Token :=
  [bare ['2'] n, bare ['>'] (n + 1), bare ['&'] (n + 2), bare ['1'] (n + 3)]

/-- The redirection that they are. -/
def mergeToken (n : Nat) : Token := bare mergeText n

theorem tokenizeFrom_merge (n : Nat) :
    tokenizeFrom n 0 (' ' :: mergeText) = mergeTokens (n + 1) := rfl

theorem stage_of_separator {chunk : Chunk} (h : chunk.separator = some "|&") :
    chunk.stage = chunk.text ++ ' ' :: mergeText := by
  rw [Chunk.stage, if_pos h]
  rfl

/-- A stage has tokens of the given texts, and behind these the tokens of the merge, which no other
one touches. -/
def AddsMerge (values : List Text) (stage : Text) : Prop :=
  ∃ words n, tokenize stage = words ++ mergeTokens n ∧ words.map Token.value = values ∧
    ∀ t ∈ words, t.stop < n

/-- The first of the texts does not start with a blank, and the last does not end with one. -/
structure KeepsEnds (values : List Text) : Prop where
  front : ∀ v ∈ values.head?, ∀ c ∈ v.head?, isBlank c = false
  back : ∀ v ∈ values.getLast?, ∀ c ∈ v.getLast?, isBlank c = false

/-! ## Blanks around a text -/

theorem isGap_of_tokenizeFrom_eq_nil {pos : Nat} {t : Text} (h : tokenizeFrom pos 0 t = []) :
    ∀ c ∈ t, isGap c = true := by
  induction t generalizing pos with
  | nil => simp
  | cons c cs ih =>
    cases hc : isGap c with
    | true =>
      rw [tokenizeFrom_cons_of_isGap hc] at h
      exact List.forall_mem_cons.mpr ⟨hc, ih h⟩
    | false =>
      rw [tokenizeFrom_cons_of_not_isGap hc] at h
      cases h

theorem value_ne_nil_of_mem {pos : Nat} {t : Text} {s : Token} (h : s ∈ tokenizeFrom pos 0 t) :
    s.value ≠ [] := by
  obtain ⟨pos', c, cs, -, rfl⟩ := mem_tokenizeFrom_cases h
  obtain ⟨rest, hvalue⟩ := lexeme_value pos' c cs
  rw [hvalue]
  exact List.cons_ne_nil _ _

theorem isGap_of_isBlank_eq_false {c : Char} (h : isBlank c = false) : isGap c = false := by
  cases hc : isGap c with
  | false => rfl
  | true =>
    rw [isBlank_of_isGap hc] at h
    cases h

/-- No gaps are at the end of a text that does not end in one. -/
theorem eq_nil_of_isGap {a v : Text} (hv : ∀ c ∈ v, isGap c = true)
    (h : ∀ c ∈ (a ++ v).getLast?, isGap c = false) : v = [] := by
  rcases List.eq_nil_or_concat v with rfl | ⟨v, c, rfl⟩
  · rfl
  · have hgap := hv c (by simp)
    rw [h c (by simp)] at hgap
    cases hgap

/-- Blanks in front of the first token are gaps if the token does not start with one. -/
theorem isGap_of_front {pos : Nat} {pre t : Text} (hpre : Blank pre)
    (h : ∀ s ∈ (tokenizeFrom pos 0 (pre ++ t)).head?, ∀ c ∈ s.value.head?, isBlank c = false) :
    ∀ c ∈ pre, isGap c = true := by
  induction pre generalizing pos with
  | nil => simp
  | cons c cs ih =>
    have hcs : Blank cs := fun d hd => hpre d (List.mem_cons_of_mem _ hd)
    rw [List.cons_append] at h
    cases hc : isGap c with
    | true =>
      rw [tokenizeFrom_cons_of_isGap hc] at h
      exact List.forall_mem_cons.mpr ⟨hc, ih hcs h⟩
    | false =>
      rw [tokenizeFrom_cons_of_not_isGap hc] at h
      obtain ⟨rest, hvalue⟩ := lexeme_value pos c (cs ++ t)
      have hblank := h _ rfl c (by rw [hvalue]; rfl)
      rw [hpre c List.mem_cons_self] at hblank
      cases hblank

/-- Blanks behind the last token are gaps if the token does not end with one. -/
theorem isGap_of_back {pos : Nat} {t post : Text} (hpost : Blank post)
    (ht : ∀ c ∈ t.getLast?, isBlank c = false)
    (h : ∀ s ∈ (tokenizeFrom pos 0 (t ++ post)).getLast?, ∀ c ∈ s.value.getLast?,
      isBlank c = false) :
    ∀ c ∈ post, isGap c = true := by
  rcases List.eq_nil_or_concat (tokenizeFrom pos 0 (t ++ post)) with hnil | ⟨T, s, hsplit⟩
  · exact fun c hc => isGap_of_tokenizeFrom_eq_nil hnil c (List.mem_append_right _ hc)
  · rw [List.concat_eq_append] at hsplit
    obtain ⟨u, v, htext, -, -, -, hv⟩ := tokenizeFrom_split hsplit
    have hv' := isGap_of_tokenizeFrom_eq_nil hv
    have hlast : ∀ c ∈ (u ++ s.value).getLast?, isBlank c = false := by
      have hne := value_ne_nil_of_mem (hsplit ▸ List.mem_append_right T List.mem_cons_self)
      rw [List.getLast?_append_of_ne_nil _ hne]
      exact h s (by rw [hsplit, List.getLast?_concat]; rfl)
    have hsame : t = u ++ s.value := by
      rw [← trimBack_of_getLast ht, ← trimBack_append_blank hpost, htext,
        trimBack_append_blank fun c hc => isBlank_of_isGap (hv' c hc), trimBack_of_getLast hlast]
    rw [hsame] at htext
    rwa [List.append_cancel_left htext]

theorem trimLast_eq_self {ts : List Token} (h : ∀ t ∈ ts.getLast?, t.trimmed = t) :
    trimLast ts = ts := by
  induction ts with
  | nil => rfl
  | cons t ts ih =>
    cases ts with
    | nil => exact congrArg (· :: []) (h t rfl)
    | cons u ts => rw [trimLast, ih (by simpa using h)]

/-! ## Parts that keep their ends -/

section

variable {pre text post : Text} {pos : Nat}

/-- If trimming takes nothing from the tokens of a text, it has the same tokens afterwards. -/
theorem KeepsEnds.tokenize_trim (hpre : Blank pre) (hpost : Blank post) (htext : Trimmed text)
    (h : KeepsEnds ((tokenizeFrom pos 0 (pre ++ text ++ post)).map Token.value)) :
    (tokenize text).map (Token.shift (pos + size pre)) =
      tokenizeFrom pos 0 (pre ++ text ++ post) := by
  have hfront : ∀ s ∈ (tokenizeFrom pos 0 (pre ++ text ++ post)).head?, ∀ c ∈ s.value.head?,
      isBlank c = false := by
    intro s hs
    refine h.front s.value ?_
    rw [List.head?_map, hs]
    rfl
  have hback : ∀ s ∈ (tokenizeFrom pos 0 (pre ++ text ++ post)).getLast?, ∀ c ∈ s.value.getLast?,
      isBlank c = false := by
    intro s hs
    refine h.back s.value ?_
    rw [List.getLast?_map, hs]
    rfl
  have hpre' : ∀ c ∈ pre, isGap c = true := by
    rw [List.append_assoc] at hfront
    exact isGap_of_front hpre hfront
  have hpost' : ∀ c ∈ post, isGap c = true := by
    rw [List.append_assoc, tokenizeFrom_gap hpre'] at hback
    exact isGap_of_back hpost htext.back hback
  rw [tokenizeFrom_trim hpre' hpost' htext]
  refine trimLast_eq_self fun s hs => Token.trimmed_eq_self ?_ (hback s hs)
  obtain ⟨T, hsplit⟩ := List.getLast?_eq_some_iff.mp hs
  obtain ⟨-, -, -, -, hstop, -⟩ := tokenizeFrom_split hsplit
  exact hstop

/-- A complete text keeps its tokens in front of the merge. -/
theorem tokenize_append_merge (h : ∀ t ∈ tokenize text, t.Complete) :
    tokenize (text ++ ' ' :: mergeText) =
      tokenize text ++ mergeTokens (size text + 1) := by
  rw [tokenize, tokenizeFrom_append_of_complete rfl h, Nat.zero_add, tokenizeFrom_merge]
  rfl

theorem completeBefore_of_complete (h : ∀ t ∈ tokenize text, t.Complete) :
    CompleteBefore ' ' text := by
  rw [CompleteBefore, tokenize, tokenizeFrom_append_of_complete rfl h, Nat.zero_add]
  rfl

/-- The merge is read at the end of the stage, behind the text and a space. -/
theorem words_eq_of_merge {words : List Token} {n : Nat}
    (h : tokenize (text ++ ' ' :: mergeText) = words ++ mergeTokens n) :
    n = size text + 1 ∧ tokenize (text ++ [' ']) = words := by
  have hn : n = size text + 1 := by
    have hlast : tokenizeFrom 0 0 (text ++ ' ' :: mergeText) =
        (words ++ [bare ['2'] n, bare ['>'] (n + 1), bare ['&'] (n + 2)]) ++
          [bare ['1'] (n + 3)] := by
      rw [List.append_assoc]
      exact h
    obtain ⟨u, v, hsplit, hstart, -, -, hv⟩ := tokenizeFrom_split hlast
    -- The stage ends in `1`, so nothing stands behind the last token.
    obtain rfl : v = [] := by
      refine eq_nil_of_isGap (isGap_of_tokenizeFrom_eq_nil hv) (a := u ++ ['1']) ?_
      show ∀ c ∈ (u ++ (bare ['1'] (n + 3)).value ++ v).getLast?, isGap c = false
      rw [← hsplit, List.getLast?_append_of_ne_nil _ (List.cons_ne_nil _ _)]
      rintro c ⟨⟩
      rfl
    have hsize := congrArg size hsplit
    simp only [size_append, List.append_nil] at hsize
    have hstart' : n + 3 = 0 + size u := hstart
    have hfive : size (' ' :: mergeText) = 5 := rfl
    have hone : size (bare ['1'] (n + 3)).value = 1 := rfl
    omega
  subst hn
  refine ⟨rfl, ?_⟩
  have hread : tokenizeFrom 0 0 (text ++ ' ' :: mergeText) =
      words ++ mergeTokens (size text + 1) := h
  obtain ⟨u, v, hsplit, hstart, -, hu, -⟩ := tokenizeFrom_split hread
  have hstart' : size text + 1 = 0 + size u := hstart
  have happend : (text ++ [' ']) ++ mergeText = u ++ (['2'] ++ v) := by
    rw [List.append_assoc, ← List.append_assoc u]
    exact hsplit
  have hsize : size (text ++ [' ']) = size u := by
    rw [size_append]
    have hone : size [' '] = 1 := rfl
    omega
  rw [(append_inj_of_size happend hsize).1]
  exact hu

/-- A stage that has the tokens of a part in front of the merge has no blank at their ends. -/
theorem AddsMerge.keepsEnds {values : List Text} (htext : Trimmed text) (hne : text ≠ [])
    (h : AddsMerge values (text ++ ' ' :: mergeText)) : KeepsEnds values := by
  obtain ⟨words, n, htokens, rfl, hapart⟩ := h
  obtain ⟨rfl, hwords⟩ := words_eq_of_merge htokens
  refine ⟨?_, ?_⟩
  · obtain ⟨c, cs, rfl⟩ := List.exists_cons_of_ne_nil hne
    have hc : isBlank c = false := htext.front c rfl
    rw [← hwords, tokenize, List.cons_append,
      tokenizeFrom_cons_of_not_isGap (isGap_of_isBlank_eq_false hc)]
    rintro v ⟨⟩ d hd
    obtain ⟨rest, hvalue⟩ := lexeme_value 0 c (cs ++ [' '])
    rw [hvalue] at hd
    obtain rfl : c = d := Option.some.inj hd
    exact hc
  · rcases List.eq_nil_or_concat words with rfl | ⟨T, s, rfl⟩
    · rintro v ⟨⟩
    rw [List.concat_eq_append] at hwords hapart ⊢
    obtain ⟨u, v, hsplit, hstart, hstop, -, hv⟩ :=
      tokenizeFrom_split (show tokenizeFrom 0 0 (text ++ [' ']) = T ++ s :: [] from hwords)
    have hlt := hapart s (List.mem_append_right _ List.mem_cons_self)
    have hne' : s.value ≠ [] :=
      value_ne_nil_of_mem (hwords ▸ List.mem_append_right T List.mem_cons_self)
    -- The last token ends where the text does, since only gaps are behind it.
    obtain ⟨m, hm⟩ := Text.exists_eq_append_of_size_le hsplit.symm
      (by rw [size_append]; omega)
    have hgaps : ∀ c ∈ m, isGap c = true := by
      rw [hm, List.append_assoc] at hsplit
      have hv' := List.append_cancel_left hsplit
      exact fun c hc => isGap_of_tokenizeFrom_eq_nil hv c (hv' ▸ List.mem_append_left _ hc)
    obtain rfl : m = [] := eq_nil_of_isGap hgaps fun c hc =>
      isGap_of_isBlank_eq_false (htext.back c (hm ▸ hc))
    rw [List.map_append, List.map_singleton, List.getLast?_concat]
    rintro v ⟨⟩ c hc
    refine htext.back c ?_
    rwa [hm, List.append_nil, List.getLast?_append_of_ne_nil _ hne']

end

/-! ## Fusing the merge -/

theorem single_of_mem_mergeTokens (n : Nat) : ∀ t ∈ mergeTokens n, t.Single := by
  intro t ht o ho
  simp only [mergeTokens, List.mem_cons, List.not_mem_nil, or_false] at ht ho
  rcases ht with rfl | rfl | rfl | rfl <;> rcases ho with rfl | rfl | rfl <;> rfl

theorem fused_append_merge {text : Text} (hc : CompleteBefore ' ' text) (h : Closed text) :
    fused (text ++ ' ' :: mergeText) = fused text ++ [mergeToken (size text + 1)] := by
  have hmerge : fused (' ' :: mergeText) = [mergeToken 1] := by decide
  rw [fused_append_gap hc h (by decide), hmerge]
  rfl

/-- The merge becomes one redirection behind a closed text, and behind no other. -/
theorem mem_fused_merge_iff {text : Text} (hc : CompleteBefore ' ' text) :
    mergeToken (size text + 1) ∈ fused (text ++ ' ' :: mergeText) ↔ Closed text := by
  refine ⟨fun h => ?_, fun h => ?_⟩
  · exact closed_of_mem_fused hc (tokenizeFrom_merge _) rfl rfl (single_of_mem_mergeTokens _)
      ⟨_, h, rfl⟩
  · rw [fused_append_merge hc h]
    exact List.mem_append_right _ List.mem_cons_self

/-! ## Stages that `|&` ends -/

/-- The texts of the tokens of a segment between two offsets. -/
def partValues (segment : Text) (bounds : Nat × Nat) : List Text :=
  ((tokenize segment).filter (Token.liesIn bounds)).map Token.value

section

variable {σ : Type} {cutter : Cutter σ} {segment piece : Text} {bounds : Nat × Nat} {t : Token}

/-- A piece in front of a token that keeps its ends has its tokens also when it is trimmed, and they
are complete. -/
theorem IsPiece.tokenize_trim (h : IsPiece cutter segment bounds piece) (ht : t ∈ tokenize segment)
    (hstart : t.start = bounds.2) (hends : KeepsEnds (partValues segment bounds)) :
    (tokenize (trim piece)).map Token.value = partValues segment bounds ∧
      ∀ s ∈ tokenize (trim piece), s.Complete := by
  obtain ⟨pre, post, hpre, hpost, hpiece, htrimmed⟩ := Text.exists_eq_trim piece
  have hsame : (tokenize (trim piece)).map (Token.shift (bounds.1 + size pre)) =
      (tokenize segment).filter (Token.liesIn bounds) := by
    rw [partValues, h.tokens_eq, hpiece] at hends
    rw [h.tokens_eq, hends.tokenize_trim hpre hpost htrimmed, ← hpiece]
  refine ⟨?_, fun s hs => ?_⟩
  · rw [partValues, ← hsame, List.map_map]
    rfl
  · have hshift : s.shift (bounds.1 + size pre) ∈
        (tokenize segment).filter (Token.liesIn bounds) := by
      rw [← hsame]
      exact List.mem_map_of_mem hs
    obtain ⟨hmem, hlies⟩ := List.mem_filter.mp hshift
    obtain ⟨-, hstop⟩ := Bool.and_eq_true_iff.mp hlies
    have hcomplete : (s.shift (bounds.1 + size pre)).Complete :=
      complete_of_mem_tokenize hmem ht (by rw [hstart]; exact of_decide_eq_true hstop)
    exact hcomplete

theorem IsPiece.addsMerge_iff (h : IsPiece cutter segment bounds piece) (ht : t ∈ tokenize segment)
    (hstart : t.start = bounds.2) (hne : trim piece ≠ []) :
    AddsMerge (partValues segment bounds) (trim piece ++ ' ' :: mergeText) ↔
      KeepsEnds (partValues segment bounds) := by
  obtain ⟨-, -, -, -, -, htrimmed⟩ := Text.exists_eq_trim piece
  refine ⟨fun hadds => hadds.keepsEnds htrimmed hne, fun hends => ?_⟩
  obtain ⟨hvalues, hcomplete⟩ := h.tokenize_trim ht hstart hends
  refine ⟨_, _, tokenize_append_merge hcomplete, hvalues, fun s hs => ?_⟩
  have := (inside_tokenize _ s hs).2
  omega

end

/-- The chunks of a line that a separator ends, with their bounds. -/
theorem forall₂_chunks (line : Text) (start : Nat) (ts : List Token) :
    List.Forall₂ (fun bounds chunk => ∀ v ∈ chunk.separator,
        chunk.text = trim (slice bounds.1 bounds.2 line) ∧
          ∃ t ∈ ts, t.value = v ∧ t.start = bounds.2)
      (chunkBounds line start ts) (chunks line start ts) := by
  induction ts generalizing start with
  | nil => exact .cons (fun _ hv => by cases hv) .nil
  | cons t ts ih =>
    refine .cons ?_ ((ih t.stop).imp fun bounds chunk h v hv => ?_)
    · rintro v ⟨⟩
      exact ⟨rfl, t, List.mem_cons_self, rfl, rfl⟩
    · obtain ⟨htext, u, hu, hvalue⟩ := h v hv
      exact ⟨htext, u, List.mem_cons_of_mem _ hu, hvalue⟩

/-- A stage that `|&` ends has the tokens of its part of the segment and the merge behind them if and
only if no token at an end of the part has a blank there. Then the merge becomes one redirection if
and only if the text of the stage is closed. -/
theorem merges_added_iff (segment : Text) :
    List.Forall₂ (fun bounds (chunk : Chunk) => chunk.separator = some "|&" → chunk.text ≠ [] →
        (AddsMerge (partValues segment bounds) chunk.stage ↔
          KeepsEnds (partValues segment bounds)) ∧
        (KeepsEnds (partValues segment bounds) →
          (mergeToken (size chunk.text + 1) ∈ fused chunk.stage ↔ Closed chunk.text) ∧
          (Closed chunk.text →
            fused chunk.stage = fused chunk.text ++ [mergeToken (size chunk.text + 1)])))
      (chunkBounds segment 0 (separators pipeCutter .top () (tokenize segment)))
      (cutLine pipeCutter () segment) := by
  obtain ⟨pieces, -, hpieces⟩ := forall₂_isPiece pipeCutter () segment
  have hbounds : ∀ bounds ∈ chunkBounds segment 0 (separators pipeCutter .top () (tokenize segment)),
      ∃ piece, IsPiece pipeCutter segment bounds piece := by
    intro bounds hmem
    obtain ⟨piece, -, hpiece⟩ := exists_rel_of_mem_right hpieces.flip hmem
    exact ⟨piece, hpiece⟩
  refine ((List.forall₂_and_left _ _).mpr ⟨hbounds, forall₂_chunks segment 0 _⟩).imp ?_
  rintro bounds chunk ⟨⟨piece, hpiece⟩, hchunk⟩ hseparator hne
  obtain ⟨htext, t, ht, -, hstart⟩ := hchunk _ hseparator
  have hmem : t ∈ tokenize segment := (separators_sublist _ _ _ _).subset ht
  rw [hpiece.slice_eq] at htext
  rw [stage_of_separator hseparator, htext]
  rw [htext] at hne
  refine ⟨hpiece.addsMerge_iff hmem hstart hne, fun hends => ?_⟩
  have hcomplete := completeBefore_of_complete (hpiece.tokenize_trim hmem hstart hends).2
  exact ⟨mem_fused_merge_iff hcomplete, fused_append_merge hcomplete⟩

/-- Two stages whose errors travel along, the first one with a blank that is kept. -/
def mergedLine : Text := "ls a\\ b  |& sort > \"c |& d\"|&wc"

theorem merges_added_mergedLine :
    splitPipe mergedLine = ["ls a\\ b 2>&1", "sort > \"c |& d\" 2>&1", "wc"] ∧
      AddsMerge (partValues mergedLine (0, 9)) "ls a\\ b 2>&1".toList ∧
      fused "ls a\\ b 2>&1".toList = fused "ls a\\ b".toList ++ [mergeToken 8] ∧
      AddsMerge (partValues mergedLine (11, 27)) "sort > \"c |& d\" 2>&1".toList ∧
      fused "sort > \"c |& d\" 2>&1".toList =
        fused "sort > \"c |& d\"".toList ++ [mergeToken 16] := by
  have hbounds : chunkBounds mergedLine 0 (separators pipeCutter .top () (tokenize mergedLine)) =
      [(0, 9), (11, 27), (29, 31)] := by decide +kernel
  have hchunks : cutLine pipeCutter () mergedLine = [⟨"ls a\\ b".toList, some "|&".toList⟩,
      ⟨"sort > \"c |& d\"".toList, some "|&".toList⟩, ⟨"wc".toList, none⟩] := by decide +kernel
  have h := merges_added_iff mergedLine
  rw [hbounds, hchunks] at h
  obtain ⟨hfirst, hsecond, -⟩ : _ ∧ _ ∧ _ := by
    simpa only [List.forall₂_cons, List.forall₂_nil_right_iff] using h
  have hends : KeepsEnds (partValues mergedLine (0, 9)) := ⟨by decide +kernel, by decide +kernel⟩
  have hends' : KeepsEnds (partValues mergedLine (11, 27)) := ⟨by decide +kernel, by decide +kernel⟩
  obtain ⟨hadds, hfused⟩ := hfirst rfl (by decide)
  obtain ⟨hadds', hfused'⟩ := hsecond rfl (by decide)
  exact ⟨by decide +kernel, hadds.mpr hends, (hfused hends).2 (by decide +kernel),
    hadds'.mpr hends', (hfused' hends').2 (by decide +kernel)⟩

/-- A stage that ends in a protected blank. -/
def protectedBlankLine : Text := "a\\ |& b"

theorem merge_joins_protected_blank :
    partValues protectedBlankLine (0, 3) = ["a\\ ".toList] ∧
      splitPipe protectedBlankLine = ["a\\ 2>&1", "b"] ∧
      (tokenize "a\\ 2>&1".toList).map Token.value = ["a\\ 2".toList, ">", "&", "1"] ∧
      ¬AddsMerge (partValues protectedBlankLine (0, 3)) "a\\ 2>&1".toList := by
  refine ⟨by decide +kernel, by decide +kernel, by decide +kernel, fun h => ?_⟩
  have htext : Trimmed "a\\".toList := ⟨by decide, by decide⟩
  have hends : KeepsEnds (partValues protectedBlankLine (0, 3)) := h.keepsEnds htext (by decide)
  exact absurd hends.back (by decide +kernel)

end CrossShell
