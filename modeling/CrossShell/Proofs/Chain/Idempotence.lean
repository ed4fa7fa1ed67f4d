import CrossShell.Proofs.Chain.ShortCircuit
import CrossShell.Proofs.Line.Chunks
import CrossShell.Proofs.Line.Connectors

/-!
# Emulated lines have no connectors

The commands of a chain are written into guarded blocks, and the line that comes out is read again
by the reader that cut the first one. The commands then stand deeper than before, and nothing in the
text between them opens a quote. So no connector appears that was not one before, and emulating the
line once more leaves it as it is.

* `Scan.Covers`: the same state with at least the same open groups. It finds no further connectors.
* `commandTexts_quiet`: the commands of a line have no connectors, and all but the last close their
  quotes.
* `found_renderRest`: written as guarded blocks they have none either.
* `emulate_has_no_connectors`: emulation leaves no connector behind.
-/

namespace CrossShell

open Text (trim isBlank)

/-! ## Open groups hide connectors -/

namespace Scan

/-- A character leads from a mode to another one, whatever groups are open, and it leaves the groups
as they are or counts as a token. -/
def Moves (c : Char) (step : Nesting → Scan) : Prop :=
  (∃ mode, ∀ n, step n = ⟨mode, n⟩) ∨ ∃ mode, ∀ n, step n = ⟨mode, n.step ⟨[c], 0, 0, none⟩⟩

theorem moves_ofStart (c : Char) : Moves c (ofStart · c) := .inr ⟨_, fun _ => rfl⟩

theorem moves_mode (c : Char) (mode : ScanMode) : Moves c fun n => ⟨mode, n⟩ :=
  .inl ⟨mode, fun _ => rfl⟩

theorem Moves.ite {c : Char} {p : Prop} [Decidable p] {f g : Nesting → Scan} (hf : Moves c f)
    (hg : Moves c g) : Moves c fun n => if p then f n else g n := by
  by_cases h : p
  · simpa only [if_pos h] using hf
  · simpa only [if_neg h] using hg

theorem moves_ofWord (c : Char) : Moves c (ofWord · c) := by
  unfold ofWord
  refine .ite (moves_ofStart c) ?_
  cases Quote.ofChar? c with
  | some q => exact moves_mode c _
  | none => exact .ite (moves_mode c _) (moves_mode c _)

theorem moves_ofBacktick (c : Char) : Moves c (ofBacktick · c) :=
  .ite (moves_mode c _) (.ite (moves_mode c _) (moves_ofWord c))

theorem moves_step (mode : ScanMode) (c : Char) : Moves c fun n => (Scan.mk mode n).step c := by
  cases mode with
  | start => exact moves_ofStart c
  | word => exact moves_ofWord c
  | wordEscape => exact moves_mode c _
  | quote inWord q => exact .ite (moves_mode c _) (.ite (moves_mode c _) (moves_mode c _))
  | quoteEscape inWord => exact moves_mode c _
  | backslash => exact moves_mode c _
  | backtick => exact moves_ofBacktick c
  | protectedOnce d => exact .ite (moves_mode c _) (moves_ofStart c)
  | protectedAgain d => exact .ite (moves_mode c _) (moves_ofBacktick c)
  | ampersand => exact .ite (moves_mode c _) (moves_ofStart c)
  | bar => exact .ite (moves_mode c _) (moves_ofStart c)

/-- The state is the other one with at least its open groups. -/
structure Covers (s s' : Scan) : Prop where
  mode : s.mode = s'.mode
  parens : s'.nesting.parens ≤ s.nesting.parens
  braces : s'.nesting.braces ≤ s.nesting.braces

theorem Covers.step {s s' : Scan} (h : s.Covers s') (c : Char) : (s.step c).Covers (s'.step c) := by
  obtain ⟨mode, n⟩ := s
  obtain ⟨mode', n'⟩ := s'
  obtain ⟨rfl, hparens, hbraces⟩ := h
  dsimp only at hparens hbraces ⊢
  rcases moves_step mode c with ⟨next, hstep⟩ | ⟨next, hstep⟩ <;> dsimp only at hstep
  · rw [hstep, hstep]
    exact ⟨rfl, hparens, hbraces⟩
  · rw [hstep, hstep]
    refine ⟨rfl, ?_, ?_⟩ <;> rw [step_eq, step_eq] <;> split_ifs <;> dsimp only <;> omega

theorem Covers.found?_eq_none {s s' : Scan} (h : s.Covers s') {c : Char}
    (hnone : s'.found? c = none) : s.found? c = none := by
  by_cases htop : s.nesting.isTop = true
  · obtain ⟨hp, hb⟩ : s.nesting.parens = 0 ∧ s.nesting.braces = 0 := by
      simpa [Nesting.isTop] using htop
    have hparens := h.parens
    have hbraces := h.braces
    have htop' : s'.nesting.isTop = true := by
      rw [Nesting.isTop, Bool.and_eq_true, beq_iff_eq, beq_iff_eq]
      omega
    rw [found?, if_pos htop'] at hnone
    rwa [found?, if_pos htop, h.mode]
  · rw [found?, if_neg htop]

/-- A state that covers another finds nothing where the other does. -/
theorem Covers.found_eq_nil {s s' : Scan} (h : s.Covers s') {t : Text} (hnil : s'.found t = []) :
    s.found t = [] ∧ (s.after t).Covers (s'.after t) := by
  induction t generalizing s s' with
  | nil => exact ⟨rfl, h⟩
  | cons c t ih =>
    rw [found, List.append_eq_nil_iff, Option.toList_eq_nil_iff] at hnil
    obtain ⟨hfound, hafter⟩ := ih (h.step c) hnil.2
    refine ⟨?_, hafter⟩
    rw [found, h.found?_eq_none hnil.1, hfound]
    rfl

/-! ## Quotes -/

/-- Only a quote can close a quote. -/
theorem isQuoting_step {s : Scan} (h : s.isQuoting = true) {c : Char}
    (hc : Quote.ofChar? c = none) : (s.step c).isQuoting = true := by
  obtain ⟨mode, n⟩ := s
  have hne : ∀ q : Quote, c ≠ q.char := by
    rintro q rfl
    rw [Quote.ofChar?_char] at hc
    cases hc
  cases mode with
  | quote inWord q =>
    rw [step_quote, if_neg (hne q)]
    split <;> rfl
  | quoteEscape inWord => rfl
  | _ => cases h

theorem isQuoting_after {s : Scan} (h : s.isQuoting = true) {t : Text}
    (ht : ∀ c ∈ t, Quote.ofChar? c = none) : (s.after t).isQuoting = true := by
  induction t generalizing s with
  | nil => exact h
  | cons c t ih =>
    exact ih (isQuoting_step h (ht c List.mem_cons_self))
      fun d hd => ht d (List.mem_cons_of_mem _ hd)

theorem found?_of_isQuoting {s : Scan} (h : s.isQuoting = true) (c : Char) : s.found? c = none := by
  refine found?_of_mode ?_ ?_ c <;> intro hmode <;> rw [isQuoting, hmode] at h <;> cases h

end Scan

/-- What is found in a text is a connector that does not start further left. -/
theorem mem_scan {s : Scan} {pos : Nat} {w : Text} {t : Token} (h : t ∈ scan s pos w) :
    (∃ k : Connector, t.value = k.text) ∧ pos ≤ t.start + 1 := by
  induction w generalizing s pos with
  | nil => cases h
  | cons c w ih =>
    rw [scan, List.mem_append] at h
    rcases h with h | h
    · obtain ⟨k, -, rfl⟩ := Option.map_eq_some_iff.mp (Option.mem_toList.mp h)
      refine ⟨⟨k, rfl⟩, ?_⟩
      dsimp only
      omega
    · obtain ⟨hk, hle⟩ := ih h
      exact ⟨hk, by omega⟩

/-- A connector that is found at the start of a text is not quoted there. -/
theorem isQuoting_of_mem_scan {s : Scan} {v : Text} {t : Token}
    (h : t ∈ scan s t.start (t.value ++ v)) : s.isQuoting = false := by
  refine Bool.eq_false_iff.mpr fun hquoting => ?_
  obtain ⟨k, hk⟩ := (mem_scan h).1
  obtain ⟨c, htext, hquote, hsize⟩ : ∃ c, k.text = [c, c] ∧ Quote.ofChar? c = none ∧
      c.utf8Size = 1 := by
    cases k
    · exact ⟨'&', rfl, rfl, rfl⟩
    · exact ⟨'|', rfl, rfl, rfl⟩
  have hnext := Scan.isQuoting_step hquoting hquote
  rw [hk, htext, List.cons_append, List.cons_append, List.nil_append,
    scan_cons_of_found_none (Scan.found?_of_isQuoting hquoting c),
    scan_cons_of_found_none (Scan.found?_of_isQuoting hnext c), hsize] at h
  have hle := (mem_scan h).2
  omega

/-! ## The pieces between connectors -/

theorem found_eq_nil_of_separators {pos : Nat} {a : Text}
    (h : separators connectorCutter .top () (tokenizeFrom pos 0 a) = []) :
    Scan.init.found a = [] := by
  rw [← scan_start] at h
  rw [Scan.init, ← filterMap_scan _ pos, h]
  rfl

/-- The pieces of a text between its connectors have no connectors themselves, and all but the last
end outside of quotes. -/
theorem pieces_of_separators {pos : Nat} {a : Text} {cuts : List (Token × Text)}
    (hplaced : Placed pos a cuts) (hcuts : cuts.map Prod.fst =
      separators connectorCutter .top () (tokenizeFrom pos 0 (ofCuts a cuts))) :
    (∀ p ∈ a :: cuts.map Prod.snd, Scan.init.found p = []) ∧
      ∀ p ∈ (a :: cuts.map Prod.snd).dropLast, (Scan.init.after p).isQuoting = false := by
  induction cuts generalizing pos a with
  | nil =>
    rw [ofCuts_nil] at hcuts
    have hfound := found_eq_nil_of_separators hcuts.symm
    simpa using hfound
  | cons cut cuts ih =>
    obtain ⟨t, b⟩ := cut
    obtain ⟨hstart, hstop, hrest⟩ := hplaced
    rw [List.map_cons] at hcuts
    dsimp only at hcuts
    have hscan : scan .init pos (ofCuts a ((t, b) :: cuts)) = t :: cuts.map Prod.fst := by
      rw [Scan.init, scan_start, hcuts]
    obtain ⟨T, S, _, htokens, hT, hS, -⟩ := separators_eq_cons hcuts.symm
    obtain ⟨u, v, htext, hustart, -, hu, hv⟩ := tokenizeFrom_split htokens
    rw [ofCuts_cons, List.append_assoc] at hscan
    rw [ofCuts_cons, List.append_assoc, List.append_assoc] at htext
    obtain ⟨rfl, hbehind⟩ := append_inj_of_size htext (by omega)
    obtain rfl := List.append_cancel_left hbehind
    rw [← hu] at hT
    rw [← hv] at hS
    obtain ⟨hfound, hquoting⟩ := ih hrest hS.symm
    have hready : (Scan.init.after a).isQuoting = false := by
      have hfront : scan .init pos a = [] := by rw [Scan.init, scan_start, hT]
      rw [scan_append, hfront, List.nil_append] at hscan
      rw [← hstart] at hscan
      exact isQuoting_of_mem_scan (hscan ▸ List.mem_cons_self)
    refine ⟨?_, ?_⟩
    · rw [List.map_cons, List.forall_mem_cons]
      exact ⟨found_eq_nil_of_separators hT, hfound⟩
    · rw [List.map_cons, List.dropLast_cons_cons, List.forall_mem_cons]
      exact ⟨hready, hquoting⟩

theorem after_gaps {gap : Text} (h : ∀ c ∈ gap, isGap c = true) : Scan.init.after gap = .init := by
  induction gap with
  | nil => rfl
  | cons c gap ih =>
    have hstep : Scan.init.step c = .init := ofStart_of_isGap (h c List.mem_cons_self) .top
    rw [Scan.after_cons, hstep]
    exact ih fun d hd => h d (List.mem_cons_of_mem _ hd)

/-- The gaps around a piece open and close nothing. -/
theorem trim_piece {piece : Text} (hgaps : ∀ c ∈ piece, isBlank c = true → isGap c = true) :
    (Scan.init.found piece = [] → Scan.init.found (trim piece) = []) ∧
      ((Scan.init.after piece).isQuoting = false →
        (Scan.init.after (trim piece)).isQuoting = false) := by
  obtain ⟨pre, post, hpre, hpost, hpiece, -⟩ := Text.exists_eq_trim piece
  have hsubset : ∀ c, c ∈ pre ∨ c ∈ post → c ∈ piece := by
    intro c hc
    rw [hpiece, List.mem_append, List.mem_append]
    rcases hc with hc | hc
    · exact .inl (.inl hc)
    · exact .inr hc
  have hstart : Scan.init.after pre = .init :=
    after_gaps fun c hc => hgaps c (hsubset c (.inl hc)) (hpre c hc)
  have hquotes : ∀ c ∈ post, Quote.ofChar? c = none := by
    intro c hc
    rcases isGap_iff.mp (hgaps c (hsubset c (.inr hc)) (hpost c hc)) with
      rfl | rfl | rfl | rfl | rfl <;> rfl
  constructor
  · intro hfound
    rw [hpiece, Scan.found_append, Scan.found_append, hstart, List.append_eq_nil_iff,
      List.append_eq_nil_iff] at hfound
    exact hfound.1.2
  · intro hready
    rw [hpiece, Scan.after_append, Scan.after_append, hstart] at hready
    refine Bool.eq_false_iff.mpr fun hquoting => ?_
    rw [Scan.isQuoting_after hquoting hquotes] at hready
    cases hready

theorem commandTexts_splitConnectors (line : Text) : commandTexts (splitConnectors line) =
    ((cutLine connectorCutter () line).map Chunk.text).filter (!·.isEmpty) := by
  rw [splitConnectors]
  induction cutLine connectorCutter () line with
  | nil => rfl
  | cons chunk chunks ih =>
    have hchunk : commandTexts chunk.segments = [chunk.text].filter (!·.isEmpty) := by
      rw [Chunk.segments]
      cases hempty : chunk.text.isEmpty <;> cases chunk.separator.bind Connector.ofText? <;>
        simp [commandTexts, hempty]
    rw [List.flatMap_cons, commandTexts, List.filterMap_append, ← commandTexts, ← commandTexts,
      hchunk, ih, ← List.filter_append]
    rfl

/-- The commands of a line have no connectors themselves, and all but the last end outside of
quotes. -/
theorem commandTexts_quiet {line : Text} (hline : ∀ c ∈ line, isBlank c = true → isGap c = true) :
    (∀ t ∈ commandTexts (splitConnectors line), Scan.init.found t = []) ∧
      ∀ t ∈ (commandTexts (splitConnectors line)).dropLast,
        (Scan.init.after t).isQuoting = false := by
  obtain ⟨a, cuts, rfl, hplaced, hcuts, hpieces⟩ := exists_cutLine_eq connectorCutter () line
  obtain ⟨hfound, hready⟩ := pieces_of_separators hplaced hcuts
  have hgaps : ∀ p ∈ a :: cuts.map Prod.snd, ∀ c ∈ p, isBlank c = true → isGap c = true := by
    intro p hp c hc
    refine hline c ?_
    rw [ofCuts, List.mem_append, List.mem_flatMap]
    rcases List.mem_cons.mp hp with rfl | hp
    · exact .inl hc
    · obtain ⟨cut, hcut, rfl⟩ := List.mem_map.mp hp
      exact .inr ⟨cut, hcut, List.mem_append_right _ hc⟩
  rw [commandTexts_splitConnectors, hpieces, map_text_piecesOf]
  constructor
  · intro t ht
    obtain ⟨p, hp, rfl⟩ := List.mem_map.mp (List.mem_of_mem_filter ht)
    exact (trim_piece (hgaps p hp)).1 (hfound p hp)
  · intro t ht
    have hsub : (((a :: cuts.map Prod.snd).map trim).filter (!·.isEmpty)).dropLast.Sublist
        ((a :: cuts.map Prod.snd).map trim).dropLast := by
      have hreverse := (List.filter_sublist (p := fun t : Text => !t.isEmpty)
        (l := (a :: cuts.map Prod.snd).map trim)).reverse.tail.reverse
      rwa [List.tail_reverse, List.tail_reverse, List.reverse_reverse, List.reverse_reverse]
        at hreverse
    have hmem := hsub.subset ht
    rw [← List.map_dropLast] at hmem
    obtain ⟨p, hp, rfl⟩ := List.mem_map.mp hmem
    exact (trim_piece (hgaps p ((List.dropLast_sublist _).subset hp))).2 (hready p hp)

/-! ## Guarded blocks -/

/-- Text without `&` and `|` has no connectors, wherever it stands. -/
theorem Scan.found_of_notMem (s : Scan) {t : Text} (hand : '&' ∉ t) (hor : '|' ∉ t) :
    s.found t = [] := by
  induction t generalizing s with
  | nil => rfl
  | cons c t ih =>
    rw [List.mem_cons, not_or] at hand hor
    rw [Scan.found_cons_of_ne (Ne.symm hand.1) (Ne.symm hor.1), ih _ hand.2 hor.2]

/-- Behind commands that leave no quote open, `;` ends the last word, even if a backslash protects
it. -/
theorem Scan.mode_after_semicolon {s : Scan} (h : s.isQuoting = false) :
    (s.after [';', ' ']).mode = .start := by
  obtain ⟨mode, n⟩ := s
  cases mode with
  | quote inWord q => cases h
  | quoteEscape inWord => cases h
  | protectedAgain d =>
    have hstep : (Scan.mk (.protectedAgain d) n).step ';' = ⟨.start, n⟩ := by
      simp only [Scan.step]
      split <;> rfl
    rw [Scan.after_cons, hstep]
    rfl
  | _ => rfl

theorem Scan.mode_after_recordStatus {s : Scan} (h : s.isQuoting = false) :
    (s.after recordStatus).mode = .word := by
  have hsplit : recordStatus = [';', ' '] ++ "$cmdxOk = $?".toList := by decide
  have hmode := mode_after_semicolon h
  rw [hsplit, after_append]
  generalize s.after [';', ' '] = s' at hmode ⊢
  obtain ⟨mode, n⟩ := s'
  subst hmode
  rfl

/-- What may stand around commands: it has no connectors, leads to the start of a token, and behind
it no quote is open. -/
structure Scan.Surrounds (opening closing : Text) : Prop where
  found_opening (s : Scan) : s.found opening = []
  found_closing (s : Scan) : s.found closing = []
  mode_opening (s : Scan) : s.isQuoting = false → (s.after opening).mode = .start
  ready_closing (s : Scan) : s.mode = .word → (s.after closing).isQuoting = false

theorem Scan.surrounds_semicolon : Surrounds "; ".toList [] where
  found_opening s := s.found_of_notMem (by decide) (by decide)
  found_closing _ := rfl
  mode_opening _ := mode_after_semicolon
  ready_closing s hs := by rw [isQuoting, show (s.after []).mode = .word from hs]

theorem Scan.surrounds_block (test : Text) (hand : '&' ∉ test) (hor : '|' ∉ test)
    (htest : ∀ n, ((Scan.mk .start n).after (test ++ " \x7b ".toList)).mode = .start) :
    Surrounds ("; ".toList ++ (test ++ " \x7b ".toList)) " \x7d".toList where
  found_opening s := s.found_of_notMem (by simp [hand]) (by simp [hor])
  found_closing s := s.found_of_notMem (by decide) (by decide)
  mode_opening s hs := by
    have hmode := mode_after_semicolon hs
    rw [after_append]
    exact hmode ▸ htest (s.after [';', ' ']).nesting
  ready_closing s hs := by
    obtain ⟨mode, n⟩ := s
    subst hs
    rfl

/-- What stands around the commands of a link. -/
theorem Link.exists_guarded_eq (link : Link) : ∃ opening closing : Text,
    (∀ body, link.guarded body = opening ++ (body ++ closing)) ∧
      Scan.Surrounds opening closing := by
  unfold guarded
  cases link.guard with
  | none => exact ⟨_, _, fun body => by simp, Scan.surrounds_semicolon⟩
  | some k =>
    cases k with
    | and =>
      refine ⟨_, _, fun body => ?_,
        Scan.surrounds_block "if ($cmdxOk)".toList (by decide) (by decide) fun n => rfl⟩
      simp
    | or =>
      refine ⟨_, _, fun body => ?_,
        Scan.surrounds_block "if (-not $cmdxOk)".toList (by decide) (by decide) fun n => rfl⟩
      simp

/-- The guarded blocks of commands that have no connectors have none, and leave the reader where a
further block can be written, if the commands leave no quote open. -/
theorem found_guarded {link : Link} {s : Scan} (hs : s.isQuoting = false)
    (hfound : Scan.init.found link.text = []) : s.found (link.guarded link.text) = [] ∧
      ((Scan.init.after link.text).isQuoting = false →
        s.found (link.guarded (link.text ++ recordStatus)) = [] ∧
          (s.after (link.guarded (link.text ++ recordStatus))).isQuoting = false) := by
  obtain ⟨opening, closing, hguarded, haround⟩ := link.exists_guarded_eq
  have hmode := haround.mode_opening s hs
  obtain ⟨htext, hcovers⟩ : (s.after opening).found link.text = [] ∧
      ((s.after opening).after link.text).Covers (Scan.init.after link.text) := by
    refine Scan.Covers.found_eq_nil ?_ hfound
    exact ⟨hmode, Nat.zero_le _, Nat.zero_le _⟩
  refine ⟨?_, fun hready => ⟨?_, ?_⟩⟩
  · rw [hguarded, Scan.found_append, Scan.found_append, haround.found_opening, htext,
      haround.found_closing]
    rfl
  · have hrecord : ∀ s : Scan, s.found recordStatus = [] := fun s =>
      s.found_of_notMem (by decide) (by decide)
    rw [hguarded, Scan.found_append, Scan.found_append, Scan.found_append,
      haround.found_opening, htext, hrecord, haround.found_closing]
    rfl
  · rw [hguarded, Scan.after_append, Scan.after_append, Scan.after_append]
    refine haround.ready_closing _ (Scan.mode_after_recordStatus ?_)
    rwa [Scan.isQuoting, hcovers.mode, ← Scan.isQuoting]

theorem found_renderRest {links : List Link} (hfound : ∀ l ∈ links, Scan.init.found l.text = [])
    (hready : ∀ l ∈ links.dropLast, (Scan.init.after l.text).isQuoting = false) {s : Scan}
    (hs : s.isQuoting = false) : s.found (renderRest links) = [] := by
  fun_induction renderRest links generalizing s with
  | case1 => rfl
  | case2 link => exact (found_guarded hs (hfound link List.mem_cons_self)).1
  | case3 link next rest ih =>
    obtain ⟨hblock, hafter⟩ := (found_guarded hs (hfound link List.mem_cons_self)).2
      (hready link List.mem_cons_self)
    rw [Scan.found_append, hblock, List.nil_append]
    exact ih (fun l hl => hfound l (List.mem_cons_of_mem _ hl))
      (fun l hl => hready l (List.mem_cons_of_mem _ hl)) hafter

/-! ## Emulated lines -/

theorem map_text_linksFrom (started : Bool) (pending : Option Connector) (segments : List Segment) :
    (linksFrom started pending segments).map (·.text) = commandTexts segments := by
  fun_induction linksFrom started pending segments with
  | case1 => rfl
  | case2 started pending c rest ih => exact ih
  | case3 pending t rest ih => rw [List.map_cons, ih]; rfl
  | case4 pending t rest ih => rw [List.map_cons, ih]; rfl

/-- A line of which no segment is a connector has one segment at most, and stays as it is. -/
theorem emulate_eq_self {line : Text} (h : ∀ s ∈ splitConnectors line, s.isConnector = false)
    (target : Target) : emulate target line = line := by
  have hlength : (splitConnectors line).length ≤ 1 := by
    have hchain := isChain_splitConnectors line
    match hsegments : splitConnectors line with
    | [] => exact Nat.zero_le 1
    | [s] => exact Nat.le_refl 1
    | s :: s' :: rest =>
      rw [hsegments] at h hchain
      have hs := h s List.mem_cons_self
      have hs' := h s' (List.mem_cons_of_mem _ List.mem_cons_self)
      have hnext := (List.isChain_cons_cons.mp hchain).1
      rw [hs, hs'] at hnext
      rcases hnext with hbad | hbad <;> cases hbad
  have hlinks : (links (splitConnectors line)).length ≤ 1 := by
    rw [← List.length_map (f := Link.text), links, map_text_linksFrom]
    exact (List.length_filterMap_le _ _).trans hlength
  unfold emulate
  split
  · rfl
  · split
    · rename_i heq
      rw [heq] at hlinks
      simp at hlinks
    · rfl

theorem connectorsOf_renderLinks {first : Link} {rest : List Link}
    (hfound : ∀ l ∈ first :: rest, Scan.init.found l.text = [])
    (hready : ∀ l ∈ (first :: rest).dropLast, (Scan.init.after l.text).isQuoting = false)
    (hrest : rest ≠ []) : connectorsOf (renderLinks first rest) = [] := by
  obtain ⟨next, more, rfl⟩ := List.exists_cons_of_ne_nil hrest
  have hfirst := hready first List.mem_cons_self
  have hafter : ((Scan.init.after first.text).after recordStatus).isQuoting = false := by
    rw [Scan.isQuoting, Scan.mode_after_recordStatus hfirst]
  rw [connectorsOf_eq_found, renderLinks, Scan.found_append, Scan.found_append,
    Scan.after_append, hfound first List.mem_cons_self,
    Scan.found_of_notMem _ (by decide) (by decide),
    found_renderRest (fun l hl => hfound l (List.mem_cons_of_mem _ hl))
      (fun l hl => hready l (List.mem_cons_of_mem _ hl)) hafter]
  rfl

/-- **Emulation leaves no connector behind.** If the only blanks of a line are those that separate
words, and there are at least two commands between its connectors, the line that is written for a
target without connectors has no connector outside of groups. So emulating it again, for whatever
target, leaves it as it is. -/
theorem emulate_has_no_connectors (target : Target) (hn : target.nativeConnectors = false)
    (line : Text) (hline : ∀ c ∈ line, isBlank c = true → isGap c = true)
    (hc : 2 ≤ (commandTexts (splitConnectors line)).length) :
    (∀ s ∈ splitConnectors (emulate target line), s.isConnector = false) ∧
      ∀ target' : Target, emulate target' (emulate target line) = emulate target line := by
  obtain ⟨hfound, hready⟩ := commandTexts_quiet hline
  have htexts := map_text_linksFrom false none (splitConnectors line)
  rw [← htexts] at hfound hready hc
  rw [List.length_map] at hc
  obtain ⟨first, next, rest, hlinks⟩ : ∃ first next rest,
      links (splitConnectors line) = first :: next :: rest := by
    match heq : links (splitConnectors line) with
    | [] => rw [links] at heq; rw [heq] at hc; simp at hc
    | [link] => rw [links] at heq; rw [heq] at hc; simp at hc
    | first :: next :: rest => exact ⟨first, next, rest, rfl⟩
  rw [links] at hlinks
  rw [hlinks] at hfound hready
  have hout : emulate target line = renderLinks first (next :: rest) := by
    simp [emulate, links, hn, hlinks]
  have hquiet : connectorsOf (emulate target line) = [] := by
    rw [hout]
    refine connectorsOf_renderLinks (fun l hl => hfound _ (List.mem_map_of_mem hl)) ?_ (by simp)
    intro l hl
    refine hready _ ?_
    rw [← List.map_dropLast]
    exact List.mem_map_of_mem hl
  have hnone : ∀ s ∈ splitConnectors (emulate target line), s.isConnector = false := by
    intro s hs
    have hconnector := List.filterMap_eq_nil_iff.mp hquiet s hs
    cases s with
    | commands t => rfl
    | connector k => cases hconnector
  exact ⟨hnone, emulate_eq_self hnone⟩

/-- A stray brace, a protected space in front of a connector, connectors in a group, and a quote
that is never closed. -/
def unevenLine : Text := "a \x7d\\  && (b || c) || 'd && e"

theorem emulate_has_no_connectors_unevenLine :
    Target.console.nativeConnectors = false ∧
      (∀ c ∈ unevenLine, isBlank c = true → isGap c = true) ∧
      2 ≤ (commandTexts (splitConnectors unevenLine)).length ∧
      emulate .console unevenLine =
        ("a \x7d\\; $cmdxOk = $?; if ($cmdxOk) \x7b (b || c); $cmdxOk = $? \x7d; " ++
          "if (-not $cmdxOk) \x7b 'd && e \x7d").toList ∧
      (∀ s ∈ splitConnectors (emulate .console unevenLine), s.isConnector = false) ∧
      ∀ target' : Target, emulate target' (emulate .console unevenLine) =
        emulate .console unevenLine := by
  have hline : ∀ c ∈ unevenLine, isBlank c = true → isGap c = true := by decide +kernel
  have hc : 2 ≤ (commandTexts (splitConnectors unevenLine)).length := by decide +kernel
  exact ⟨rfl, hline, hc, by decide +kernel,
    emulate_has_no_connectors .console rfl unevenLine hline hc⟩

end CrossShell
