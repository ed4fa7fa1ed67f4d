import CrossShell.Proofs.Line.Chunks
import CrossShell.Proofs.Token.Coverage
import CrossShell.Proofs.Token.Plain

/-!
# Reading a chunk again

A chunk is read again at every level of the conversion. All of them see the tokens that the line
had there. Only the last token can differ, if it ends in a blank that trimming took away: an escaped
one, or one in a quote that is not closed.

* `RereadsAs`: a chunk has the tokens of the line at its place.
* `IsPiece.rereadsAs`: what stands between separators does, once trimmed.
* `IsPiece.separators_trim`: a cutter that looks for operators finds none in it.
* `chunks_reread`: all chunks of a line.
-/

namespace CrossShell

open Text

/-! ## The chunks have the tokens of the line -/

/-- Reading `text`, which is what the line has between the bounds without the blanks around it, gives
the tokens of the line that lie there, the last one without the blanks at its end. -/
def RereadsAs (line : Text) (bounds : Nat × Nat) (text : Text) : Prop :=
  ∃ pre post, Blank pre ∧ Blank post ∧ slice bounds.1 bounds.2 line = pre ++ text ++ post ∧
    (tokenize text).map (Token.shift (bounds.1 + size pre)) =
      trimLast ((tokenize line).filter (Token.liesIn bounds))

theorem mem_of_mem_dropBytes {n : Nat} {t : Text} {c : Char} (h : c ∈ dropBytes n t) : c ∈ t := by
  fun_induction dropBytes n t with
  | case1 => exact h
  | case2 => exact h
  | case3 n d ds ih => exact List.mem_cons_of_mem d (ih h)

theorem mem_of_mem_takeBytes {n : Nat} {t : Text} {c : Char} (h : c ∈ takeBytes n t) : c ∈ t := by
  fun_induction takeBytes n t with
  | case1 => exact h
  | case2 => cases h
  | case3 n d ds ih =>
    rcases List.mem_cons.mp h with rfl | h
    · exact List.mem_cons_self
    · exact List.mem_cons_of_mem d (ih h)

theorem mem_of_mem_slice {a b : Nat} {t : Text} {c : Char} (h : c ∈ slice a b t) : c ∈ t :=
  mem_of_mem_dropBytes (mem_of_mem_takeBytes h)

/-- If all blanks of a text are gaps, trimming moves the tokens and cuts the last one. -/
theorem tokenizeFrom_trim {pre text post : Text} (hpre : ∀ c ∈ pre, isGap c = true)
    (hpost : ∀ c ∈ post, isGap c = true) (htext : Trimmed text) (pos : Nat) :
    (tokenize text).map (Token.shift (pos + size pre)) =
      trimLast (tokenizeFrom pos 0 (pre ++ text ++ post)) := by
  rw [← tokenizeFrom_eq, List.append_assoc, tokenizeFrom_gap hpre]
  exact tokenizeFrom_append_gap htext.back hpost _

section

variable {σ : Type} {cutter : Cutter σ} {line piece : Text} {bounds : Nat × Nat}

/-- The parts into which trimming divides a piece of a line, in which all blanks are gaps. -/
theorem IsPiece.exists_eq_trim (h : IsPiece cutter line bounds piece)
    (hline : ∀ c ∈ line, isBlank c = true → isGap c = true) :
    ∃ pre post, (∀ c ∈ pre, isGap c = true) ∧ (∀ c ∈ post, isGap c = true) ∧
      piece = pre ++ trim piece ++ post ∧ Trimmed (trim piece) := by
  obtain ⟨pre, post, hpre, hpost, heq, htrimmed⟩ := Text.exists_eq_trim piece
  have hmem : ∀ c ∈ piece, c ∈ line := fun c hc => mem_of_mem_slice (h.slice_eq ▸ hc)
  refine ⟨pre, post, fun c hc => ?_, fun c hc => ?_, heq, htrimmed⟩
  · refine hline c (hmem c ?_) (hpre c hc)
    rw [heq]
    exact List.mem_append_left _ (List.mem_append_left _ hc)
  · refine hline c (hmem c ?_) (hpost c hc)
    rw [heq]
    exact List.mem_append_right _ hc

/-- What stands between separators has the tokens of the line, once trimmed. -/
theorem IsPiece.rereadsAs (h : IsPiece cutter line bounds piece)
    (hline : ∀ c ∈ line, isBlank c = true → isGap c = true) :
    RereadsAs line bounds (trim piece) := by
  obtain ⟨pre, post, hpre, hpost, heq, htrimmed⟩ := h.exists_eq_trim hline
  refine ⟨pre, post, fun c hc => isBlank_of_isGap (hpre c hc),
    fun c hc => isBlank_of_isGap (hpost c hc), h.slice_eq.trans heq, ?_⟩
  rw [h.tokens_eq]
  conv => rhs; rw [heq]
  exact tokenizeFrom_trim hpre hpost htrimmed bounds.1

end

/-! ## Nothing is left to cut -/

/-- A token that starts as an operator does not end in a blank. -/
theorem isBlank_getLast_of_operatorStart {pos : Nat} {w : Text} {t : Token}
    (ht : t ∈ tokenizeFrom pos 0 w) {c : Char} {cs : Text} (hvalue : t.value = c :: cs)
    (hc : isOperatorStart c = true) : ∀ d ∈ t.value.getLast?, isBlank d = false := by
  obtain ⟨pos', e, es, hgap, rfl⟩ := mem_tokenizeFrom_cases ht
  obtain ⟨rest, hrest⟩ := lexeme_value pos' e es
  have hfirst : e = c := by
    rw [hrest, List.cons.injEq] at hvalue
    exact hvalue.1
  subst hfirst
  have hoperators : ∀ op ∈ operators, ∀ d ∈ op.getLast?, isBlank d = false := by decide +kernel
  have htake : (lexeme pos' e es).value = (e :: es).take (lexemeLength e es) := rfl
  rcases lexemeLength_cases hgap es with
    ⟨q, hq, -⟩ | ⟨-, hprotected⟩ | ⟨-, hop⟩ | ⟨-, hamp⟩ | ⟨hplain, -⟩
  · rcases isOperatorStart_iff.mp hc with rfl | rfl | rfl | rfl | rfl | rfl | rfl | rfl | rfl <;>
      cases hq
  · rw [← htake, hrest] at hprotected
    have hfirst : e = '\\' ∨ e = '\x60' := by
      rcases hprotected with ⟨d, -, h | h⟩ | h | h <;> rw [List.cons.injEq] at h
      · exact .inl h.1
      all_goals exact .inr h.1
    rcases hfirst with rfl | rfl <;> cases hc
  · exact hoperators _ hop
  · rw [htake, hamp]
    decide
  · rw [hc] at hplain
    cases hplain

/-- Taking the blanks from the end of a token does not make an operator of it. -/
theorem Token.trimmed_of_operatorStart {pos : Nat} {w : Text} {t : Token}
    (ht : t ∈ tokenizeFrom pos 0 w) {c : Char} {cs : Text} (hvalue : t.trimmed.value = c :: cs)
    (hc : isOperatorStart c = true) : t.trimmed = t := by
  obtain ⟨post, -, heq, -⟩ := exists_eq_trimBack t.value
  have hsame : t.value = c :: (cs ++ post) := by
    rw [heq, show trimBack t.value = c :: cs from hvalue, List.cons_append]
  refine Token.trimmed_eq_self ?_ (isBlank_getLast_of_operatorStart ht hsame hc)
  obtain ⟨pos', e, es, -, rfl⟩ := mem_tokenizeFrom_cases ht
  rfl

/-- A test that only operators pass. -/
def OperatorTest (test : Token → Bool) : Prop :=
  ∀ t : Token, test t = true → ∃ c cs, t.value = c :: cs ∧ isOperatorStart c = true

/-- Trimming the last token does not make a separator of it. -/
theorem separators_trimLast {test : Token → Bool} (htest : OperatorTest test) {pos : Nat} {w : Text}
    {n : Nesting} {ts : List Token} (hts : ∀ t ∈ ts, t ∈ tokenizeFrom pos 0 w)
    (h : separators (.ofTest test) n () ts = []) :
    separators (.ofTest test) n () (trimLast ts) = [] := by
  have hcuts : ∀ t, (Cutter.ofTest test).cuts () t = test t := fun _ => rfl
  fun_induction trimLast ts generalizing n with
  | case1 => rfl
  | case2 t =>
    by_cases hpass : test t.trimmed = true
    · obtain ⟨c, cs, hvalue, hc⟩ := htest _ hpass
      rwa [Token.trimmed_of_operatorStart (hts t List.mem_cons_self) hvalue hc]
    · simp only [separators, hcuts, hpass, Bool.false_eq_true, ↓reduceIte, ite_self]
  | case3 t u ts ih =>
    have hrest : ∀ x ∈ u :: ts, x ∈ tokenizeFrom pos 0 w :=
      fun x hx => hts x (List.mem_cons_of_mem t hx)
    rw [separators] at h ⊢
    split at h
    · rename_i htop
      split at h
      · cases h
      · rename_i hpass
        rw [if_pos htop, if_neg hpass]
        exact ih hrest h
    · rename_i htop
      rw [if_neg htop]
      exact ih hrest h

theorem separators_map_shift {test : Token → Bool} (k : Nat)
    (htest : ∀ t : Token, test (t.shift k) = test t) (n : Nesting) (ts : List Token) :
    separators (.ofTest test) n () (ts.map (Token.shift k)) =
      (separators (.ofTest test) n () ts).map (Token.shift k) := by
  induction ts generalizing n with
  | nil => rfl
  | cons t ts ih =>
    have hstep : n.step (t.shift k) = n.step t := rfl
    have hcuts : (Cutter.ofTest test).cuts () (t.shift k) = (Cutter.ofTest test).cuts () t := htest t
    rw [List.map_cons, separators, separators, hstep, hcuts]
    by_cases htop : (n.step t).isTop = true
    · rw [if_pos htop, if_pos htop]
      split
      · rw [List.map_cons]
        exact congrArg _ (ih _)
      · exact ih _
    · rw [if_neg htop, if_neg htop]
      exact ih _

/-- A cutter that looks for operators finds none in its own chunks. -/
theorem IsPiece.separators_trim {test : Token → Bool} {line piece : Text} {bounds : Nat × Nat}
    (h : IsPiece (.ofTest test) line bounds piece) (htest : OperatorTest test)
    (hshift : ∀ k t, test (Token.shift k t) = test t)
    (hline : ∀ c ∈ line, isBlank c = true → isGap c = true) :
    separators (.ofTest test) .top () (tokenize (trim piece)) = [] := by
  obtain ⟨s, huncut⟩ := h.uncut
  obtain ⟨pre, post, hpre, hpost, heq, htrimmed⟩ := h.exists_eq_trim hline
  have htokens := tokenizeFrom_trim hpre hpost htrimmed bounds.1
  rw [← heq] at htokens
  have hnone := separators_trimLast htest (fun _ ht => ht) huncut
  rw [← htokens, separators_map_shift _ (hshift _)] at hnone
  exact List.map_eq_nil_iff.mp hnone

/-- Cutting a chunk again gives the chunk. -/
theorem cutLine_of_mem_cutLine {test : Token → Bool} (htest : OperatorTest test)
    (hshift : ∀ k t, test (Token.shift k t) = test t) {line : Text}
    (hline : ∀ c ∈ line, isBlank c = true → isGap c = true) {chunk : Chunk}
    (h : chunk ∈ cutLine (.ofTest test) () line) :
    cutLine (.ofTest test) () chunk.text = [⟨chunk.text, none⟩] := by
  obtain ⟨bounds, piece, hp, heq⟩ := exists_isPiece_of_mem_cutLine h
  obtain ⟨-, -, -, -, -, htrimmed⟩ := hp.exists_eq_trim hline
  rw [heq, cutLine, hp.separators_trim htest hshift hline, chunks, dropBytes_zero]
  have htrim := trim_of_trimmed blank_nil htrimmed blank_nil
  rw [List.nil_append, List.append_nil] at htrim
  rw [htrim]

theorem operatorTest_connectors :
    OperatorTest fun t => t.quote.isNone && (Connector.ofText? t.value).isSome := by
  intro t h
  rw [Bool.and_eq_true] at h
  have hconnector : t.value = ['&', '&'] ∨ t.value = ['|', '|'] := by
    by_contra hnone
    rw [not_or] at hnone
    have hvalue : Connector.ofText? t.value = none := (if_neg hnone.1).trans (if_neg hnone.2)
    rw [hvalue] at h
    cases h.2
  rcases hconnector with hvalue | hvalue
  · exact ⟨_, _, hvalue, rfl⟩
  · exact ⟨_, _, hvalue, rfl⟩

theorem operatorTest_pipes : OperatorTest fun t => t.isBare "|" || t.isBare "|&" := by
  intro t h
  rw [Bool.or_eq_true, Token.isBare, Token.isBare, Bool.and_eq_true, Bool.and_eq_true, beq_iff_eq,
    beq_iff_eq] at h
  rcases h with ⟨-, hvalue⟩ | ⟨-, hvalue⟩
  · exact ⟨_, _, hvalue, rfl⟩
  · exact ⟨_, _, hvalue, rfl⟩

/-- Commands among segments are the text of their chunk. -/
theorem Chunk.text_of_mem_segments {chunk : Chunk} {text : Text}
    (h : .commands text ∈ chunk.segments) : chunk.text ≠ [] ∧ chunk.text = text := by
  rw [Chunk.segments] at h
  rcases List.mem_append.mp h with h | h
  · split at h
    · cases h
    · rename_i hne
      rw [List.mem_singleton, Segment.commands.injEq] at h
      exact ⟨fun hnil => hne (List.isEmpty_iff.mpr hnil), h.symm⟩
  · rw [Option.mem_toList, Option.map_eq_some_iff] at h
    obtain ⟨c, -, hc⟩ := h
    cases hc

/-- Commands between connectors are not cut again. -/
theorem splitConnectors_of_mem {line : Text}
    (hline : ∀ c ∈ line, isBlank c = true → isGap c = true) {text : Text}
    (h : .commands text ∈ splitConnectors line) : splitConnectors text = [.commands text] := by
  obtain ⟨chunk, hchunk, hsegment⟩ := List.mem_flatMap.mp h
  obtain ⟨hne, rfl⟩ := Chunk.text_of_mem_segments hsegment
  rw [splitConnectors, connectorCutter,
    cutLine_of_mem_cutLine operatorTest_connectors (fun _ _ => rfl) hline hchunk]
  simp [Chunk.segments, hne]

/-- A line with no other white space than what separates tokens: each chunk of any cutter has the
tokens of the line at its place, and a chunk between connectors or pipes is not cut again. -/
theorem chunks_reread (line : Text) (hline : ∀ c ∈ line, isBlank c = true → isGap c = true) :
    (∀ {σ : Type} (cutter : Cutter σ) (s : σ),
      List.Forall₂ (RereadsAs line)
        (chunkBounds line 0 (separators cutter .top s (tokenize line)))
        ((cutLine cutter s line).map Chunk.text)) ∧
    (∀ text, .commands text ∈ splitConnectors line → splitConnectors text = [.commands text]) ∧
    ∀ chunk ∈ cutLine pipeCutter () line, chunk.text ≠ [] →
      splitPipe chunk.text = [chunk.text] := by
  refine ⟨fun cutter s => ?_, fun text h => splitConnectors_of_mem hline h, fun chunk h hne => ?_⟩
  · obtain ⟨pieces, htexts, hpieces⟩ := forall₂_isPiece cutter s line
    rw [htexts, List.forall₂_map_right_iff]
    exact hpieces.imp fun _ _ hp => hp.rereadsAs hline
  · rw [splitPipe, pipeCutter, cutLine_of_mem_cutLine operatorTest_pipes (fun _ _ => rfl) hline h]
    simp [Chunk.stage, hne]

/-- A line with a blank behind a backslash, and one in a quote that is not closed. -/
def cutBlanksLine : Text := "a\\  && (b || c) |& d | 'e' \"f  "

theorem chunks_reread_cutBlanksLine :
    (∀ c ∈ cutBlanksLine, isBlank c = true → isGap c = true) ∧
      List.Forall₂ (RereadsAs cutBlanksLine) [(0, 4), (6, 31)]
        ["a\\".toList, "(b || c) |& d | 'e' \"f".toList] ∧
      splitConnectors "(b || c) |& d | 'e' \"f" = [.commands "(b || c) |& d | 'e' \"f"] ∧
      splitPipe "'e' \"f" = ["'e' \"f".toList] := by
  have hline : ∀ c ∈ cutBlanksLine, isBlank c = true → isGap c = true := by decide
  obtain ⟨hcutter, hconnectors, hpipes⟩ := chunks_reread cutBlanksLine hline
  refine ⟨hline, hcutter connectorCutter (), hconnectors _ (by decide), ?_⟩
  exact hpipes ⟨"'e' \"f", none⟩ (by decide) (by decide)

end CrossShell
