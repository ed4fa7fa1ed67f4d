import CrossShell.Proofs.Line.Connectors
import CrossShell.Proofs.Line.Reread

/-!
# Connectors and the parts of a line

A line is cut at its tokens, and the parts are read again one by one. Where an operator outside of
groups stands behind a part, the automaton for connectors starts anew, whatever stands behind the
operator. So a part shows no connector that the line does not show there, and a part with another
one behind it leaves neither a group nor a quote open.

* `Scan.found_behind`: the automaton starts anew at an operator that is read as such.
* `exists_seam`: what this says of a line that is cut there.
* `exists_reads_cutLine`: the chunks of a line.
* `ReadsInParts`: what the parts of a text have in common with it.
* `reads_splitSequence`, `reads_splitPipe`, `reads_segment`, `ready_segment`: commands, stages and
  segments.
-/

namespace CrossShell

open Text (isBlank trim)

/-! ## Blanks at the ends -/

namespace Scan

theorem not_mem_structural_of_isBlank {c : Char} (h : isBlank c = true) : c ∉ structural := by
  have hnone : ∀ d ∈ structural, isBlank d = false := by decide
  intro hc
  rw [hnone c hc] at h
  cases h

theorem after_gaps {t : Text} (ht : ∀ c ∈ t, isGap c = true) : init.after t = init := by
  induction t with
  | nil => rfl
  | cons c t ih =>
    have hstep : init.step c = init := ofStart_of_isGap (ht c List.mem_cons_self) .top
    rw [after_cons, hstep]
    exact ih fun d hd => ht d (List.mem_cons_of_mem _ hd)

/-- If all blanks are gaps, trimming a text neither shows a connector nor opens anything. -/
theorem trim_reads {t : Text} (ht : ∀ c ∈ t, isBlank c = true → isGap c = true) :
    (init.found t = [] → init.found (trim t) = []) ∧
      ((init.after t).ready = true → (init.after (trim t)).ready = true) := by
  obtain ⟨pre, post, hpre, hpost, heq, -⟩ := Text.exists_eq_trim t
  have hgaps : ∀ c ∈ pre, isGap c = true := by
    intro c hc
    refine ht c ?_ (hpre c hc)
    rw [heq]
    exact List.mem_append_left _ (List.mem_append_left _ hc)
  constructor
  · intro h
    rw [heq, found_append, found_append, after_gaps hgaps, List.append_eq_nil_iff,
      List.append_eq_nil_iff] at h
    exact h.1.2
  · intro h
    rw [heq, after_append, after_append, after_gaps hgaps] at h
    exact ready_of_ready_after (fun c hc => not_mem_structural_of_isBlank (hpost c hc)) h

/-! ## At an operator -/

/-- Where an operator is read behind a text and outside of groups, the automaton starts anew,
whatever stands behind its first character. -/
theorem found_behind {u y : Text} {g : Char} (hg : isOperatorStart g = true) {pos : Nat}
    {S : List Token} (h : tokenizeFrom pos 0 (u ++ g :: y) = tokenizeFrom pos 0 u ++ S)
    (hn : Nesting.top.after (tokenizeFrom pos 0 u) = .top) (r : Text) :
    (init.after u).found (g :: r) = init.found (g :: r) := by
  have hscan : scan init pos (u ++ g :: r) =
      scan init pos u ++ scan init (pos + Text.size u) (g :: r) := by
    rw [init, scan_start, scan_start, scan_start, tokenizeFrom_append_operator hg h,
      separators_append, hn]
  rw [scan_append, List.append_cancel_left_eq] at hscan
  rw [← filterMap_scan (init.after u) (pos + Text.size u), hscan, filterMap_scan]

theorem found_bar {t : Text} (h : ∀ c ∈ t.head?, c ≠ '|' ∧ c ≠ '&') (n : Nesting) :
    (Scan.mk .bar n).found t = (Scan.mk .start n).found t := by
  have hscan := scan_bar (fun hc => (h _ hc).1 rfl) (fun hc => (h _ hc).2 rfl) n 0
  rw [← filterMap_scan _ 0, hscan, filterMap_scan]

end Scan

/-- The operators at which lines are cut. -/
def cutOperators : List Text := [[';'], ['|'], ['|', '&'], ['&', '&'], ['|', '|']]

/-- A cutter that cuts at these operators only. -/
def Cutter.CutsAtOperators {σ : Type} (cutter : Cutter σ) : Prop :=
  ∀ s t, cutter.cuts s t = true → t.quote = none ∧ t.value ∈ cutOperators

theorem cutOperator_of_isBare {t : Token} {op : Text} (h : t.isBare op = true)
    (hop : op ∈ cutOperators) : t.quote = none ∧ t.value ∈ cutOperators := by
  obtain ⟨hquote, hvalue⟩ := Bool.and_eq_true_iff.mp h
  exact ⟨Option.isNone_iff_eq_none.mp hquote, beq_iff_eq.mp hvalue ▸ hop⟩

theorem cutOperators_facts : ∀ op ∈ cutOperators,
    (∃ g ∈ op.head?, isOperatorStart g = true) ∧ Scan.init.found (op ++ [' ', '&', '&', ' ']) ≠ [] ∧
      ∀ c ∈ op ++ [' ', '&', '&', ' '], c ∉ Scan.structural := by
  decide

theorem step_cutOperator {op : Text} (hop : op ∈ cutOperators) (n : Nesting) (start stop : Nat) :
    n.step ⟨op, start, stop, none⟩ = n := by
  simp only [cutOperators, List.mem_cons, List.not_mem_nil, or_false] at hop
  rcases hop with rfl | rfl | rfl | rfl | rfl <;> rfl

/-- Behind such an operator the automaton is in its initial state, or has read one `|` that no
second one stands behind. -/
theorem Scan.found_cutOperator {op : Text} (hop : op ∈ cutOperators) {t : Text}
    (ht : op = ['|'] → ∀ c ∈ t.head?, c ≠ '|' ∧ c ≠ '&') :
    (init.after op).found t = init.found t := by
  simp only [cutOperators, List.mem_cons, List.not_mem_nil, or_false] at hop
  rcases hop with rfl | rfl | rfl | rfl | rfl
  · rfl
  · exact found_bar (ht rfl) .top
  · rfl
  · rfl
  · rfl

/-- A `|` that is read as one stands in front of neither `|` nor `&`. -/
theorem head_of_bar {pos : Nat} {y : Text} {t : Token} {S : List Token}
    (h : tokenizeFrom pos 0 ('|' :: y) = t :: S) (ht : t.value = ['|']) :
    ∀ c ∈ y.head?, c ≠ '|' ∧ c ≠ '&' := by
  rw [tokenizeFrom_cons_of_not_isGap rfl] at h
  obtain ⟨rfl, -⟩ := List.cons.inj h
  have hlength : lexemeLength '|' y = 1 := by
    have hle := lexemeLength_le '|' y
    have hvalue := congrArg List.length ht
    simp only [lexeme, List.length_take, List.length_cons, List.length_nil] at hvalue
    omega
  cases y with
  | nil => simp
  | cons c y =>
    intro d hd
    obtain rfl : c = d := Option.some.inj hd
    constructor
    · rintro rfl
      simp [lexemeLength, Quote.ofChar?, operatorAt?, operators_eq] at hlength
    · rintro rfl
      simp [lexemeLength, Quote.ofChar?, operatorAt?, operators_eq] at hlength

/-! ## The parts of a line -/

section

variable {σ : Type} {cutter : Cutter σ} (hcutter : cutter.CutsAtOperators)
include hcutter

/-- The first cut of a line: what stands in front of it leaves nothing open, and the connectors are
those in front of it, at it and behind it. -/
theorem exists_seam {pos : Nat} {a b : Text} {t : Token} {cuts : List (Token × Text)} {s : σ}
    (hplaced : Placed pos a ((t, b) :: cuts))
    (hcuts : separators cutter .top s (tokenizeFrom pos 0 (ofCuts a ((t, b) :: cuts))) =
      t :: cuts.map Prod.fst) :
    (Scan.init.after a).ready = true ∧
      (∀ w : Text, (∀ c ∈ w.head?, c ≠ '|' ∧ c ≠ '&') →
        Scan.init.found (ofCuts a ((t, b) :: cuts) ++ w) =
          Scan.init.found a ++ Scan.init.found t.value ++ Scan.init.found (ofCuts b cuts ++ w)) ∧
      ∃ s', separators cutter .top s' (tokenizeFrom t.stop 0 (ofCuts b cuts)) =
        cuts.map Prod.fst := by
  obtain ⟨hstart, hstop, -⟩ := hplaced
  obtain ⟨T, S, s', hsplit, -, hbehind, hnesting, s'', hcut⟩ := separators_eq_cons hcuts
  obtain ⟨u, v, htext, hstart', -, hT, hS⟩ := tokenizeFrom_split hsplit
  rw [ofCuts_cons] at htext
  obtain ⟨rfl, rfl⟩ : a = u ∧ ofCuts b cuts = v := by
    rw [List.append_assoc, List.append_assoc] at htext
    obtain ⟨hau, hrest⟩ := append_inj_of_size htext (by omega)
    exact ⟨hau, List.append_cancel_left hrest⟩
  obtain ⟨hquote, hop⟩ := hcutter s'' t hcut
  obtain ⟨op, start, stop, quote⟩ := t
  obtain rfl : quote = none := hquote
  obtain ⟨⟨g, hhead, hg⟩, hconnector, hstructural⟩ := cutOperators_facts op hop
  obtain ⟨ds, rfl⟩ := List.head?_eq_some_iff.mp hhead
  rw [step_cutOperator hop] at hnesting
  have htokens : tokenizeFrom pos 0 (a ++ g :: (ds ++ ofCuts b cuts)) =
      tokenizeFrom pos 0 a ++ ⟨g :: ds, start, stop, none⟩ :: S := by
    rw [hT, ← hsplit, ofCuts_cons, List.append_assoc]
    rfl
  have hanew : ∀ r, (Scan.init.after a).found (g :: ds ++ r) = Scan.init.found (g :: ds ++ r) :=
    fun r => Scan.found_behind hg htokens (hT ▸ hnesting) (ds ++ r)
  refine ⟨Scan.ready_of_found_ne_nil hstructural (hanew _ ▸ hconnector), fun w hw => ?_, s', ?_⟩
  · rw [ofCuts_cons, List.append_assoc, List.append_assoc, Scan.found_append, hanew,
      Scan.found_append, Scan.found_cutOperator hop, List.append_assoc]
    intro hbar
    obtain ⟨rfl, rfl⟩ := List.cons.inj hbar
    cases hrest : ofCuts b cuts with
    | nil => exact hw
    | cons c rest =>
      have hread := tokenizeFrom_append_operator hg htokens ([] ++ ofCuts b cuts)
      rw [htokens, List.append_cancel_left_eq] at hread
      have hhead := head_of_bar hread.symm rfl
      rw [List.nil_append, hrest] at hhead
      exact hhead
  · rwa [hS]

/-- The chunks between placed separators, by induction on these. -/
theorem exists_reads_piecesOf {pos : Nat} {a : Text} {cuts : List (Token × Text)} {s : σ}
    (hplaced : Placed pos a cuts)
    (hcuts : separators cutter .top s (tokenizeFrom pos 0 (ofCuts a cuts)) = cuts.map Prod.fst)
    (hline : ∀ c ∈ ofCuts a cuts, isBlank c = true → isGap c = true) :
    ∃ front last, piecesOf a cuts = front ++ [⟨last, none⟩] ∧
      (∀ chunk ∈ front, (Scan.init.after chunk.text).ready = true) ∧
      (Scan.init.found (ofCuts a cuts) = [] →
        (∀ chunk ∈ front, Scan.init.found chunk.text = []) ∧ Scan.init.found last = [] ∧
        ((Scan.init.after (ofCuts a cuts)).ready = true →
          (Scan.init.after last).ready = true)) := by
  induction cuts generalizing pos a s with
  | nil =>
    rw [ofCuts_nil] at hline ⊢
    obtain ⟨hfound, hready⟩ := Scan.trim_reads hline
    exact ⟨[], trim a, rfl, by simp, fun h => ⟨by simp, hfound h, hready⟩⟩
  | cons cut cuts ih =>
    obtain ⟨t, b⟩ := cut
    obtain ⟨hready, hfound, s', hrest⟩ := exists_seam hcutter hplaced hcuts
    have hmem : ∀ c, c ∈ a ∨ c ∈ ofCuts b cuts → c ∈ ofCuts a ((t, b) :: cuts) := by
      intro c hc
      rw [ofCuts_cons]
      rcases hc with hc | hc
      · exact List.mem_append_left _ (List.mem_append_left _ hc)
      · exact List.mem_append_right _ hc
    obtain ⟨htrim, htrim'⟩ := Scan.trim_reads fun c hc => hline c (hmem c (.inl hc))
    obtain ⟨front, last, heq, hfront, hlast⟩ :=
      ih hplaced.2.2 hrest fun c hc => hline c (hmem c (.inr hc))
    refine ⟨⟨trim a, some t.value⟩ :: front, last, by rw [piecesOf, heq]; rfl, ?_, fun hnone => ?_⟩
    · exact List.forall_mem_cons.mpr ⟨htrim' hready, hfront⟩
    · have hwhole := hfound [] (by simp)
      have hbehind := hfound [' ', '&', '&', ' '] (by simp)
      rw [List.append_nil, List.append_nil, hnone] at hwhole
      obtain ⟨hat, hb⟩ := List.append_eq_nil_iff.mp hwhole.symm
      obtain ⟨ha, ht⟩ := List.append_eq_nil_iff.mp hat
      obtain ⟨hfront', hlast', hready'⟩ := hlast hb
      refine ⟨List.forall_mem_cons.mpr ⟨htrim ha, hfront'⟩, hlast', fun h => hready' ?_⟩
      rw [Scan.ready_iff_found] at h ⊢
      rw [Scan.found_append, hnone, h, ha, ht, Scan.found_append, hb] at hbehind
      exact hbehind.symm

/-- The chunks of a line: all but the last leave nothing open. If the line has no connector then
neither has a chunk, and if it leaves nothing open then neither does the last chunk. -/
theorem exists_reads_cutLine (s : σ) {line : Text}
    (hline : ∀ c ∈ line, isBlank c = true → isGap c = true) :
    ∃ front last, cutLine cutter s line = front ++ [⟨last, none⟩] ∧
      (∀ chunk ∈ front, (Scan.init.after chunk.text).ready = true) ∧
      (Scan.init.found line = [] → (∀ chunk ∈ front, Scan.init.found chunk.text = []) ∧
        Scan.init.found last = [] ∧
        ((Scan.init.after line).ready = true → (Scan.init.after last).ready = true)) := by
  obtain ⟨a, cuts, rfl, hplaced, hcuts, hchunks⟩ := exists_cutLine_eq cutter s line
  rw [hchunks]
  exact exists_reads_piecesOf hcutter hplaced hcuts.symm hline

end

/-! ## Commands and stages -/

theorem isBlank_head_of_mem_cutLine {σ : Type} {cutter : Cutter σ} {s : σ} {line : Text}
    {chunk : Chunk} (h : chunk ∈ cutLine cutter s line) :
    ∀ c ∈ chunk.text.head?, isBlank c = false := by
  obtain ⟨-, piece, -, heq⟩ := exists_isPiece_of_mem_cutLine h
  obtain ⟨-, -, -, -, -, htrimmed⟩ := Text.exists_eq_trim piece
  rw [heq]
  exact htrimmed.front

theorem mem_of_mem_cutLine {σ : Type} {cutter : Cutter σ} {s : σ} {line : Text} {chunk : Chunk}
    (h : chunk ∈ cutLine cutter s line) {c : Char} (hc : c ∈ chunk.text) : c ∈ line := by
  obtain ⟨bounds, piece, hpiece, heq⟩ := exists_isPiece_of_mem_cutLine h
  obtain ⟨pre, post, -, -, hsplit, -⟩ := Text.exists_eq_trim piece
  have hmem : c ∈ piece := by
    rw [hsplit, ← heq]
    exact List.mem_append_left _ (List.mem_append_right _ hc)
  exact mem_of_mem_slice (hpiece.slice_eq ▸ hmem)

theorem mem_of_mem_dropLast_append {α : Type} {xs ys : List α} (hys : ys.length ≤ 1) {a : α}
    (h : a ∈ (xs ++ ys).dropLast) : a ∈ xs := by
  match ys, hys with
  | [], _ => exact (List.dropLast_sublist _).subset (List.append_nil xs ▸ h)
  | [y], _ => rwa [List.dropLast_concat] at h

/-- How the parts of a text without connectors are read: none of them starts with a blank or has a
connector, each with another one behind it leaves nothing open, and if the text leaves nothing open
then so does each of them. -/
structure ReadsInParts (whole : Text) (parts : List Text) : Prop where
  front : ∀ p ∈ parts, ∀ c ∈ p.head?, isBlank c = false
  quiet : ∀ p ∈ parts, Scan.init.found p = []
  inner : ∀ p ∈ parts.dropLast, (Scan.init.after p).ready = true
  all : (Scan.init.after whole).ready = true → ∀ p ∈ parts, (Scan.init.after p).ready = true

/-- A part that neither starts with a blank nor has a connector, and that leaves nothing open. -/
structure Scan.Closed (p : Text) : Prop where
  front : ∀ c ∈ p.head?, isBlank c = false
  quiet : init.found p = []
  ready : (init.after p).ready = true

theorem Scan.redirection_of_ready {s : Scan} (h : s.ready = true) :
    s.found [' ', '2', '>', '&', '1'] = [] ∧ (s.after [' ', '2', '>', '&', '1']).ready = true := by
  rw [found_cons_of_ne (by decide) (by decide), after_cons]
  rcases step_space_of_ready h with hs | hs <;> rw [hs] <;> decide

/-- Behind `|&` a redirection is added to a stage. -/
theorem Scan.Closed.stage {chunk : Chunk} (hne : chunk.text ≠ []) (h : Scan.Closed chunk.text) :
    Scan.Closed chunk.stage := by
  unfold Chunk.stage
  split
  · obtain ⟨hfound, hready⟩ := Scan.redirection_of_ready h.ready
    refine ⟨?_, ?_, ?_⟩
    · rw [List.head?_append_of_ne_nil _ hne]
      exact h.front
    · rw [Scan.found_append, h.quiet, List.nil_append]
      exact hfound
    · rw [Scan.after_append]
      exact hready
  · exact h

section

variable {text : Text} (htext : ∀ c ∈ text, isBlank c = true → isGap c = true)
  (hquiet : Scan.init.found text = [])
include htext hquiet

/-- What is made of the chunks of a text that are not empty, if the last one is taken as it is. -/
theorem reads_chunks {σ : Type} {cutter : Cutter σ} (hcutter : cutter.CutsAtOperators) (s : σ)
    {f : Chunk → Text} (hlast : ∀ t, f ⟨t, none⟩ = t)
    (hf : ∀ chunk, chunk.text ≠ [] → Scan.Closed chunk.text → Scan.Closed (f chunk)) :
    ReadsInParts text (((cutLine cutter s text).filter (!·.text.isEmpty)).map f) := by
  obtain ⟨front, last, hcut, hready, hfound⟩ := exists_reads_cutLine hcutter s htext
  obtain ⟨hfront, hnone, hall⟩ := hfound hquiet
  have hheads : ∀ chunk ∈ front ++ [⟨last, none⟩], ∀ c ∈ chunk.text.head?, isBlank c = false := by
    rw [← hcut]
    exact fun chunk h => isBlank_head_of_mem_cutLine h
  have hclosed : ∀ p ∈ (front.filter (!·.text.isEmpty)).map f, Scan.Closed p := by
    intro p hp
    obtain ⟨chunk, hchunk, rfl⟩ := List.mem_map.mp hp
    obtain ⟨hmem, hne⟩ := List.mem_filter.mp hchunk
    exact hf chunk (by simpa using hne) ⟨hheads chunk (List.mem_append_left _ hmem),
      hfront chunk hmem, hready chunk hmem⟩
  have hlast' : (([⟨last, none⟩] : List Chunk).filter (!·.text.isEmpty)).map f =
      [last].filter (!·.isEmpty) := by
    cases last with
    | nil => rfl
    | cons c last => exact congrArg (fun t => [t]) (hlast (c :: last))
  have hmem : ∀ p ∈ (front.filter (!·.text.isEmpty)).map f ++ [last].filter (!·.isEmpty),
      p ∈ (front.filter (!·.text.isEmpty)).map f ∨ p = last := by
    intro p hp
    refine (List.mem_append.mp hp).imp_right fun h => ?_
    exact List.mem_singleton.mp (List.mem_filter.mp h).1
  rw [hcut, List.filter_append, List.map_append, hlast']
  refine ⟨fun p hp => ?_, fun p hp => ?_, fun p hp => ?_, fun hwhole p hp => ?_⟩
  · rcases hmem p hp with hp | rfl
    · exact (hclosed p hp).front
    · exact hheads ⟨p, none⟩ (by simp)
  · rcases hmem p hp with hp | rfl
    · exact (hclosed p hp).quiet
    · exact hnone
  · exact (hclosed p (mem_of_mem_dropLast_append (List.length_filter_le _ _) hp)).ready
  · rcases hmem p hp with hp | rfl
    · exact (hclosed p hp).ready
    · exact hall hwhole

theorem reads_splitSequence : ReadsInParts text (splitSequence text) := by
  have hcutter : sequenceCutter.CutsAtOperators := by
    intro s t h
    exact cutOperator_of_isBare (Bool.and_eq_true_iff.mp h).1 (by decide)
  rw [splitSequence, List.filter_map]
  exact reads_chunks htext hquiet hcutter {} (fun _ => rfl) fun _ _ h => h

theorem reads_splitPipe : ReadsInParts text (splitPipe text) := by
  have hcutter : pipeCutter.CutsAtOperators := by
    intro s t h
    rcases Bool.or_eq_true_iff.mp h with h | h
    · exact cutOperator_of_isBare h (by decide)
    · exact cutOperator_of_isBare h (by decide)
  exact reads_chunks htext hquiet hcutter () (fun _ => rfl) fun _ => Scan.Closed.stage

end

theorem gaps_of_mem_splitSequence {text part : Text}
    (htext : ∀ c ∈ text, isBlank c = true → isGap c = true) (h : part ∈ splitSequence text) :
    ∀ c ∈ part, isBlank c = true → isGap c = true := by
  obtain ⟨chunk, hchunk, rfl⟩ := List.mem_map.mp (List.mem_filter.mp h).1
  exact fun c hc => htext c (mem_of_mem_cutLine hchunk hc)

/-! ## Segments -/

section

variable {line : Text} (hline : ∀ c ∈ line, isBlank c = true → isGap c = true)
include hline

/-- The text between connectors. -/
theorem reads_segment {text : Text} (h : .commands text ∈ splitConnectors line) :
    Scan.init.found text = [] ∧ ∀ c ∈ text, isBlank c = true → isGap c = true := by
  constructor
  · rw [← connectorsOf_eq_found, connectorsOf, splitConnectors_of_mem hline h]
    rfl
  · obtain ⟨chunk, hchunk, hsegment⟩ := List.mem_flatMap.mp h
    obtain ⟨-, rfl⟩ := Chunk.text_of_mem_segments hsegment
    exact fun c hc => hline c (mem_of_mem_cutLine hchunk hc)

/-- Text with a connector behind it leaves nothing open. -/
theorem ready_segment {text : Text} (h : .commands text ∈ (splitConnectors line).dropLast) :
    (Scan.init.after text).ready = true := by
  have hcutter : connectorCutter.CutsAtOperators := by
    intro s t h
    obtain ⟨hquote, hvalue⟩ := Bool.and_eq_true_iff.mp h
    refine ⟨Option.isNone_iff_eq_none.mp hquote, ?_⟩
    rw [ofText?_eq] at hvalue
    split at hvalue
    · simp_all [cutOperators]
    · split at hvalue
      · simp_all [cutOperators]
      · cases hvalue
  obtain ⟨front, last, hcut, hready, -⟩ := exists_reads_cutLine hcutter () hline
  rw [splitConnectors, hcut, List.flatMap_append] at h
  have hlast : (([⟨last, none⟩] : List Chunk).flatMap Chunk.segments).length ≤ 1 := by
    simp only [List.flatMap_cons, List.flatMap_nil, Chunk.segments]
    split <;> simp
  obtain ⟨chunk, hchunk, hsegment⟩ := List.mem_flatMap.mp (mem_of_mem_dropLast_append hlast h)
  obtain ⟨-, rfl⟩ := Chunk.text_of_mem_segments hsegment
  exact hready chunk hchunk

end

end CrossShell
