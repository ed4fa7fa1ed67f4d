import CrossShell.Proofs.Line.Reread

/-!
# Cutting two lines that are joined

If the first of two lines leaves nothing open, reading the line that joins them reads both. Cutting
at the separator between them then cuts each of them as if it stood alone.

* `ClosedLine`: no quote, no backslash and no group of the line is left open.
* `tokenizeFrom_append_of_complete`: a gap behind complete tokens ends the last of them.
* `cutLine_append`: the chunks of both lines, with the separator behind the last of the first.
* `splitting_compositional`: for connectors and for pipelines.
-/

namespace CrossShell

open Text

/-! ## Lines that leave nothing open -/

/-- Nothing in the token is left open: each of its quotes is closed, and behind each backslash that
protects stands the character that it protects. -/
def Token.Complete (t : Token) : Prop := Protection.none.after t.value = .none

instance (t : Token) : Decidable t.Complete := inferInstanceAs (Decidable (_ = _))

/-- Reading the line ends outside of quotes and groups, and not behind a backslash that waits for
the next character. -/
structure ClosedLine (line : Text) : Prop where
  /-- No token has an open quote or ends in such a backslash. -/
  complete : ∀ t ∈ tokenize line, t.Complete
  /-- No group is open. -/
  nesting : Nesting.top.after (tokenize line) = .top

instance (line : Text) : Decidable (ClosedLine line) :=
  decidable_of_iff ((∀ t ∈ tokenize line, t.Complete) ∧ Nesting.top.after (tokenize line) = .top)
    ⟨fun h => ⟨h.1, h.2⟩, fun h => ⟨h.complete, h.nesting⟩⟩

theorem isGap_of_mem_protected {v : Text} (h : IsProtectedOperator v) :
    ∀ c ∈ v, isGap c = false := by
  rcases h with ⟨d, hd, rfl | rfl⟩ | rfl | rfl
  · rcases isOperatorStart_iff.mp hd with rfl | rfl | rfl | rfl | rfl | rfl | rfl | rfl | rfl <;>
      decide
  · rcases isOperatorStart_iff.mp hd with rfl | rfl | rfl | rfl | rfl | rfl | rfl | rfl | rfl <;>
      decide
  · decide
  · decide

/-- A gap inside of a token is quoted there, or stands behind a backslash. -/
theorem hides_of_gap {c g : Char} (hc : isGap c = false) (hg : isGap g = true) {cs r : Text}
    (h : cs.length + 1 < lexemeLength c (cs ++ g :: r)) :
    (Protection.none.after (c :: cs)).Hides := by
  have hoperators : ∀ op ∈ operators, ∀ c ∈ op, isGap c = false := by decide +kernel
  have hmem : g ∈ (c :: (cs ++ g :: r)).take (lexemeLength c (cs ++ g :: r)) := by
    obtain ⟨k, hk⟩ := Nat.exists_eq_add_of_lt h
    rw [hk, ← List.cons_append, show cs.length + 1 + k + 1 = (c :: cs).length + (k + 1) from by
      simp; omega, List.take_length_add_append]
    simp
  have hnone : ∀ v : Text, g ∈ v → ¬∀ c ∈ v, isGap c = false := by
    intro v hv hall
    simp [hall g hv] at hg
  rcases lexemeLength_cases hc (cs ++ g :: r) with
    ⟨q, hq, hlength⟩ | ⟨-, hform⟩ | ⟨-, hform⟩ | ⟨-, hform⟩ | ⟨-, -, hlength⟩
  · have hslash : c ≠ '\\' := by
      rintro rfl
      cases hq
    have hquote := quote_after_of_quotedLength (q := q) (u := cs) (v := r) (e := g) rfl (by omega)
    left
    rw [Protection.after_cons, Protection.step_outside hslash, hq, hquote]
    rfl
  · exact absurd (isGap_of_mem_protected hform) (hnone _ hmem)
  · exact absurd (hoperators _ hform) (hnone _ hmem)
  · rw [hform] at hmem
    exact absurd (by decide) (hnone _ hmem)
  · rw [hlength] at h
    exact hides_of_wordLength (u := c :: cs) (v := r) (e := g) rfl (by simp [hg]) h

/-- A gap behind a complete token ends it. -/
theorem lexemeLength_of_complete {c g : Char} (hc : isGap c = false) (hg : isGap g = true)
    {cs : Text} {pos : Nat} (h : (lexeme pos c cs).Complete) (r : Text) :
    lexemeLength c (cs ++ g :: r) = lexemeLength c cs := by
  by_cases hle : lexemeLength c (cs ++ g :: r) ≤ cs.length + 1
  · exact (lexemeLength_of_le hle).symm
  · have hlt : cs.length + 1 < lexemeLength c (cs ++ g :: r) := by omega
    have hvalue : (lexeme pos c cs).value = c :: cs := by
      simp [lexeme, lexemeLength_of_gap hg hlt]
    have hhides := hides_of_gap hc hg hlt
    rw [Token.Complete, hvalue] at h
    rw [h] at hhides
    rcases hhides with hquote | hescaped
    · cases hquote
    · cases hescaped

/-- Behind complete tokens and a gap, reading starts anew. -/
theorem tokenizeFrom_append_of_complete {w : Text} {g : Char} (hg : isGap g = true) {pos : Nat}
    (h : ∀ t ∈ tokenizeFrom pos 0 w, t.Complete) (r : Text) :
    tokenizeFrom pos 0 (w ++ g :: r) =
      tokenizeFrom pos 0 w ++ tokenizeFrom (pos + size w) 0 (g :: r) := by
  induction hn : w.length using Nat.strongRecOn generalizing pos w with
  | ind n ih =>
    cases w with
    | nil => simp [tokenizeFrom]
    | cons c cs =>
      cases hc : isGap c with
      | true =>
        rw [List.cons_append, tokenizeFrom_cons_of_isGap hc, tokenizeFrom_cons_of_isGap hc,
          size_cons, ← Nat.add_assoc]
        rw [tokenizeFrom_cons_of_isGap hc] at h
        exact ih cs.length (by simp at hn; omega) h rfl
      | false =>
        rw [tokenizeFrom_cons_of_not_isGap hc] at h
        have hlength := lexemeLength_of_complete hc hg (h _ List.mem_cons_self) r
        have hle := lexemeLength_le c cs
        have hdrop : (c :: (cs ++ g :: r)).drop (lexemeLength c cs) =
            (c :: cs).drop (lexemeLength c cs) ++ g :: r := by
          rw [← List.cons_append, List.drop_append_of_le_length hle]
        have hsize : pos + size (c :: cs) =
            (lexeme pos c cs).stop + size ((c :: cs).drop (lexemeLength c cs)) := by
          rw [lexeme_stop, Nat.add_assoc, ← size_append, List.take_append_drop]
        have hrest := ih _ (by have := lexemeLength_pos c cs; simp at hn ⊢; omega)
          (fun t ht => h t (List.mem_cons_of_mem _ ht)) rfl
        rw [List.cons_append, tokenizeFrom_cons_of_not_isGap hc, tokenizeFrom_cons_of_not_isGap hc,
          lexeme_append hlength hle, hlength, hdrop, hrest, hsize, List.cons_append]

/-! ## Pieces of a line behind another -/

/-- The same pieces, `n` bytes further to the right. -/
def shiftCuts (n : Nat) (cuts : List (Token × Text)) : List (Token × Text) :=
  cuts.map fun cut => (cut.1.shift n, cut.2)

theorem map_fst_shiftCuts (n : Nat) (cuts : List (Token × Text)) :
    (shiftCuts n cuts).map Prod.fst = (cuts.map Prod.fst).map (Token.shift n) := by
  simp [shiftCuts, Function.comp_def]

theorem ofCuts_shiftCuts (n : Nat) (a : Text) (cuts : List (Token × Text)) :
    ofCuts a (shiftCuts n cuts) = ofCuts a cuts := by
  simp [ofCuts, shiftCuts, List.flatMap_map, Token.shift]

theorem piecesOf_shiftCuts (n : Nat) (a : Text) (cuts : List (Token × Text)) :
    piecesOf a (shiftCuts n cuts) = piecesOf a cuts := by
  induction cuts generalizing a with
  | nil => rfl
  | cons cut cuts ih =>
    show _ :: piecesOf cut.2 (shiftCuts n cuts) = _ :: piecesOf cut.2 cuts
    rw [ih]
    rfl

theorem Placed.shiftCuts {pos : Nat} {a : Text} {cuts : List (Token × Text)} (h : Placed pos a cuts)
    (n : Nat) : Placed (n + pos) a (shiftCuts n cuts) := by
  induction cuts generalizing pos a with
  | nil => trivial
  | cons cut cuts ih =>
    obtain ⟨hstart, hstop, hrest⟩ := h
    refine ⟨?_, ?_, ih hrest⟩
    · simp only [Token.shift]
      omega
    · simp only [Token.shift]
      omega

/-- Pieces, a separator with blanks around it, and more pieces. -/
theorem exists_cuts_append {pos : Nat} {a b x y : Text} {cuts cuts' : List (Token × Text)}
    {t : Token} (h : Placed pos a cuts) (hx : Blank x) (hy : Blank y)
    (hstart : t.start = pos + size (ofCuts a cuts) + size x)
    (hstop : t.stop = t.start + size t.value) (h' : Placed t.stop (y ++ b) cuts') :
    ∃ c joined front last, ofCuts c joined = ofCuts a cuts ++ x ++ t.value ++ (y ++ ofCuts b cuts') ∧
      Placed pos c joined ∧ joined.map Prod.fst = cuts.map Prod.fst ++ t :: cuts'.map Prod.fst ∧
      piecesOf a cuts = front ++ [⟨last, none⟩] ∧
      piecesOf c joined = front ++ ⟨last, some t.value⟩ :: piecesOf b cuts' := by
  induction cuts generalizing pos a with
  | nil =>
    have htrim : trim (a ++ x) = trim a := by simpa using trim_blank_append_blank blank_nil hx a
    have htrim' : trim (y ++ b) = trim b := by simpa using trim_blank_append_blank hy blank_nil b
    refine ⟨a ++ x, (t, y ++ b) :: cuts', [], trim a, ?_, ⟨?_, hstop, h'⟩, rfl, rfl, ?_⟩
    · simp [ofCuts_append_left]
    · simp at hstart ⊢
      omega
    · cases cuts' <;> simp [piecesOf, htrim, htrim']
  | cons cut cuts ih =>
    obtain ⟨s, d⟩ := cut
    obtain ⟨hs, hs', hrest⟩ := h
    obtain ⟨c, joined, front, last, htext, hplaced, htokens, hpieces, hjoined⟩ :=
      ih hrest (by rw [hstart, ofCuts_cons, size_append, size_append]; omega)
    refine ⟨a, (s, c) :: joined, ⟨trim a, some s.value⟩ :: front, last, ?_, ⟨hs, hs', hplaced⟩,
      ?_, ?_, ?_⟩
    · simp [htext]
    · simp [htokens]
    · simp [piecesOf, hpieces]
    · simp [piecesOf, hjoined]

/-! ## Lines behind one another -/

/-- A word that is read as one token if a gap stands behind it, is no bracket, and at which a cutter
cuts. -/
structure IsCut (test : Token → Bool) (v : Text) : Prop where
  lexes : ∀ r, Lexes v (' ' :: r)
  step : ∀ (n : Nesting) pos, n.step (bare v pos) = n
  test : ∀ pos, test (bare v pos) = true

section

variable {test : Token → Bool} {a v : Text} (ha : ClosedLine a) (hv : IsCut test v)
include ha hv

/-- The tokens of two lines with a separator between them. -/
theorem tokenize_join (b : Text) : tokenize (a ++ ' ' :: (v ++ ' ' :: b)) =
    tokenize a ++
      bare v (size a + 1) :: (tokenize b).map (Token.shift (size a + 1 + size v + 1)) := by
  have hspace : ' '.utf8Size = 1 := rfl
  rw [tokenize, tokenizeFrom_append_of_complete rfl ha.complete, tokenizeFrom_cons_of_isGap rfl,
    hv.lexes, tokenizeFrom_cons_of_isGap rfl, hspace, tokenizeFrom_eq _ b, Nat.zero_add]
  rfl

/-- The separators are those of the two lines and the one between them. -/
theorem separators_join (hshift : ∀ k t, test (Token.shift k t) = test t) (b : Text) :
    separators (.ofTest test) .top () (tokenize (a ++ ' ' :: (v ++ ' ' :: b))) =
      separators (.ofTest test) .top () (tokenize a) ++ bare v (size a + 1) ::
        (separators (.ofTest test) .top () (tokenize b)).map
          (Token.shift (size a + 1 + size v + 1)) := by
  have hcut : (Cutter.ofTest test).cuts () (bare v (size a + 1)) = true := hv.test _
  rw [tokenize_join ha hv, separators_append, ha.nesting, separators, hv.step, hcut,
    ← separators_map_shift _ (hshift _)]
  rfl

/-- Two lines with a separator between them are cut into the chunks of both, and the last chunk of
the first line ends at the separator. -/
theorem cutLine_append (hshift : ∀ k t, test (Token.shift k t) = test t) (b : Text) :
    ∃ front last, cutLine (.ofTest test) () a = front ++ [⟨last, none⟩] ∧
      cutLine (.ofTest test) () (a ++ ' ' :: (v ++ ' ' :: b)) =
        front ++ ⟨last, some v⟩ :: cutLine (.ofTest test) () b := by
  have hcuts := separators_join ha hv hshift b
  obtain ⟨a', cuts, rfl, hplaced, htokens, hchunks⟩ := exists_cutLine_eq (.ofTest test) () a
  obtain ⟨b', cuts', rfl, hplaced', htokens', hchunks'⟩ := exists_cutLine_eq (.ofTest test) () b
  have hbehind : Placed (size (ofCuts a' cuts) + 1 + size v) ([' '] ++ b')
      (shiftCuts (size (ofCuts a' cuts) + 1 + size v + 1) cuts') :=
    (hplaced'.shiftCuts _).of_size (by simp [Nat.add_assoc]; rfl)
  obtain ⟨c, joined, front, last, htext, hjoined, hfst, hpieces, hpieces'⟩ :=
    exists_cuts_append (t := bare v (size (ofCuts a' cuts) + 1)) hplaced blank_space blank_space
      (by simp [bare]; rfl) rfl hbehind
  have hline : ofCuts c joined = ofCuts a' cuts ++ ' ' :: (v ++ ' ' :: ofCuts b' cuts') := by
    rw [htext, ofCuts_shiftCuts]
    simp [bare]
  have hjoinedChunks := chunks_ofCuts [] c joined hjoined
  rw [hfst, map_fst_shiftCuts, htokens, htokens', ← hcuts, List.nil_append, hline] at hjoinedChunks
  rw [hpieces', piecesOf_shiftCuts, ← hchunks'] at hjoinedChunks
  exact ⟨front, last, by rw [hchunks, hpieces], hjoinedChunks⟩

end

theorem isCut_connector (k : Connector) :
    IsCut (fun t => t.quote.isNone && (Connector.ofText? t.value).isSome) k.text := by
  cases k with
  | and => exact ⟨fun _ => lexes_of_lexemeLength rfl rfl rfl, fun _ _ => rfl, fun _ => rfl⟩
  | or => exact ⟨fun _ => lexes_of_lexemeLength rfl rfl rfl, fun _ _ => rfl, fun _ => rfl⟩

theorem isCut_bar : IsCut (fun t => t.isBare "|" || t.isBare "|&") "|" :=
  ⟨fun _ => lexes_of_lexemeLength rfl rfl rfl, fun _ _ => rfl, fun _ => rfl⟩

/-- The segments of a line with a connector behind it. -/
theorem Chunk.segments_connector (text : Text) (k : Connector) :
    Chunk.segments ⟨text, some k.text⟩ = Chunk.segments ⟨text, none⟩ ++ [.connector k] := by
  cases k <;> simp [segments] <;> rfl

theorem splitConnectors_append {a : Text} (ha : ClosedLine a) (k : Connector) (b : Text) :
    splitConnectors (a ++ ' ' :: (k.text ++ ' ' :: b)) =
      splitConnectors a ++ [.connector k] ++ splitConnectors b := by
  obtain ⟨front, last, hline, hjoined⟩ := cutLine_append ha (isCut_connector k) (fun _ _ => rfl) b
  simp [splitConnectors, connectorCutter, hline, hjoined, Chunk.segments_connector]

theorem splitPipe_append {a : Text} (ha : ClosedLine a) (b : Text) :
    splitPipe (a ++ ' ' :: ("|" ++ ' ' :: b)) = splitPipe a ++ splitPipe b := by
  obtain ⟨front, last, hline, hjoined⟩ := cutLine_append ha isCut_bar (fun _ _ => rfl) b
  have hstage : Chunk.stage ⟨last, some ['|']⟩ = Chunk.stage ⟨last, none⟩ := rfl
  rw [splitPipe, splitPipe, splitPipe, pipeCutter, hline, hjoined]
  by_cases hempty : last.isEmpty = true
  · simp [hempty]
  · simp [hempty, hstage]

/-- **Cutting is compositional.** The segments of a closed line and any other line with a connector
between them are the segments of the two lines with the connector between them, and the stages of the
two with a bar between them are the stages of both. -/
theorem splitting_compositional {a : Text} (ha : ClosedLine a) (b : Text) :
    splitConnectors (a ++ " && " ++ b) =
        splitConnectors a ++ [.connector .and] ++ splitConnectors b ∧
      splitConnectors (a ++ " || " ++ b) =
        splitConnectors a ++ [.connector .or] ++ splitConnectors b ∧
      splitPipe (a ++ " | " ++ b) = splitPipe a ++ splitPipe b := by
  have hglue : ∀ v : Text, a ++ (' ' :: v ++ [' ']) ++ b = a ++ ' ' :: (v ++ ' ' :: b) := by simp
  refine ⟨?_, ?_, ?_⟩
  · exact (congrArg splitConnectors (hglue "&&")).trans (splitConnectors_append ha .and b)
  · exact (congrArg splitConnectors (hglue "||")).trans (splitConnectors_append ha .or b)
  · exact (congrArg splitPipe (hglue "|")).trans (splitPipe_append ha b)

/-- A closing token that closes nothing, a quoted connector, and a group with a protected bar. -/
def strayLine : Text := ") 'x && y' || \x7b b | c\\| \x7d"

theorem splitting_compositional_strayLine :
    ClosedLine strayLine ∧
      splitConnectors strayLine =
        [.commands ") 'x && y'", .connector .or, .commands "\x7b b | c\\| \x7d"] ∧
      splitConnectors (strayLine ++ " && " ++ "(d && 'e") =
        splitConnectors strayLine ++ [.connector .and] ++ [.commands "(d && 'e"] ∧
      splitPipe (strayLine ++ " | " ++ "d |& 'e") = [strayLine, "d 2>&1", "'e"] := by
  have hclosed : ClosedLine strayLine := by decide +kernel
  have hquoted : splitConnectors "(d && 'e" = [.commands "(d && 'e"] := by decide +kernel
  have hstages : splitPipe strayLine ++ splitPipe "d |& 'e" = [strayLine, "d 2>&1", "'e"] := by
    decide +kernel
  refine ⟨hclosed, by decide +kernel, ?_, ?_⟩
  · rw [← hquoted]
    exact (splitting_compositional hclosed "(d && 'e").1
  · rw [← hstages]
    exact (splitting_compositional hclosed "d |& 'e").2.2

end CrossShell
