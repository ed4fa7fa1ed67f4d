import CrossShell.Proofs.Line.Scan
import CrossShell.Proofs.Text.Trim

/-!
# The connectors of a line, and text behind it

* `connectorsOf_eq_found`: the connectors of a line are those that the automaton finds.
* `Quiet`, `Carries`: a text has no connectors; a connector behind it counts.
* `Scan.ready`: the states from which a connector counts, and `ready_glue`: what is written between
  the parts of a line leads from them back to the initial state.
-/

namespace CrossShell

open Text (Blank trim trimFront trimBack)

/-- The connector that a segment is. -/
def Segment.connector? : Segment → Option Connector
  | .commands _ => none
  | .connector c => some c

/-- The connectors of a line outside of groups. -/
def connectorsOf (line : Text) : List Connector := (splitConnectors line).filterMap (·.connector?)

theorem filterMap_segments_piecesOf (a : Text) (cuts : List (Token × Text)) :
    ((piecesOf a cuts).flatMap Chunk.segments).filterMap (·.connector?) =
      (cuts.map Prod.fst).filterMap fun t => Connector.ofText? t.value := by
  induction cuts generalizing a with
  | nil =>
    simp only [piecesOf, List.flatMap_cons, List.flatMap_nil, Chunk.segments]
    split <;> rfl
  | cons cut cuts ih =>
    obtain ⟨t, b⟩ := cut
    have hchunk : (Chunk.segments ⟨trim a, some t.value⟩).filterMap (·.connector?) =
        (Connector.ofText? t.value).toList := by
      simp only [Chunk.segments, Option.bind_some, List.filterMap_append]
      split <;> cases Connector.ofText? t.value <;> rfl
    rw [piecesOf, List.flatMap_cons, List.filterMap_append, ih, hchunk, List.map_cons,
      List.filterMap_cons]
    cases Connector.ofText? t.value <;> rfl

/-- The connectors of a line are those that the automaton finds. -/
theorem connectorsOf_eq_found (line : Text) : connectorsOf line = Scan.init.found line := by
  obtain ⟨a, cuts, rfl, -, hm, hc⟩ := exists_cutLine_eq connectorCutter () line
  rw [connectorsOf, splitConnectors, hc, filterMap_segments_piecesOf, hm, tokenize,
    ← scan_start, filterMap_scan]
  rfl

/-! ## Quiet texts -/

/-- A text without connectors, also if the blanks at its front are removed. -/
structure Quiet (u : Text) : Prop where
  whole : connectorsOf u = []
  trimmed : connectorsOf (trimFront u) = []

/-- A connector written behind a text counts, also if the blanks at its front are removed. -/
structure Carries (u : Text) : Prop where
  whole : connectorsOf (u ++ " && ") = connectorsOf u ++ [.and]
  trimmed : connectorsOf (trimFront u ++ " && ") = connectorsOf (trimFront u) ++ [.and]

instance (u : Text) : Decidable (Quiet u) :=
  decidable_of_iff (connectorsOf u = [] ∧ connectorsOf (trimFront u) = [])
    ⟨fun h => ⟨h.1, h.2⟩, fun h => ⟨h.whole, h.trimmed⟩⟩

instance (u : Text) : Decidable (Carries u) :=
  decidable_of_iff (connectorsOf (u ++ " && ") = connectorsOf u ++ [.and] ∧
      connectorsOf (trimFront u ++ " && ") = connectorsOf (trimFront u) ++ [.and])
    ⟨fun h => ⟨h.1, h.2⟩, fun h => ⟨h.whole, h.trimmed⟩⟩

/-! ## States from which a connector counts -/

namespace Scan

/-- Whether a quote is open. -/
def isQuoting (s : Scan) : Bool :=
  match s.mode with
  | .quote _ _ | .quoteEscape _ => true
  | _ => false

/-- Neither a group nor a quote is open. -/
def ready (s : Scan) : Bool := s.nesting.isTop && !s.isQuoting

theorem ready_init : init.ready = true := rfl

/-- A character either starts a token, or leaves the groups as they are and completes no operator.
Which of the two depends on the mode alone. -/
theorem step_cases (mode : ScanMode) (c : Char) : (∀ n, (Scan.mk mode n).step c = ofStart n c) ∨
    ∃ mode', (∀ n, (Scan.mk mode n).step c = ⟨mode', n⟩) ∧ mode' ≠ .ampersand ∧ mode' ≠ .bar := by
  have hword : (∀ n, ofWord n c = ofStart n c) ∨
      ∃ mode', (∀ n, ofWord n c = ⟨mode', n⟩) ∧ mode' ≠ .ampersand ∧ mode' ≠ .bar := by
    unfold ofWord
    split
    · exact Or.inl fun n => rfl
    · split
      · exact Or.inr ⟨_, fun n => rfl, by simp, by simp⟩
      · split <;> exact Or.inr ⟨_, fun n => rfl, by simp, by simp⟩
  have hbacktick : (∀ n, ofBacktick n c = ofStart n c) ∨
      ∃ mode', (∀ n, ofBacktick n c = ⟨mode', n⟩) ∧ mode' ≠ .ampersand ∧ mode' ≠ .bar := by
    unfold ofBacktick
    split
    · exact Or.inr ⟨_, fun n => rfl, by simp, by simp⟩
    · split
      · exact Or.inr ⟨_, fun n => rfl, by simp, by simp⟩
      · exact hword
  cases mode with
  | start => exact Or.inl fun n => rfl
  | word => exact hword
  | wordEscape => exact Or.inr ⟨_, fun n => rfl, by simp, by simp⟩
  | quote w q =>
    simp only [step_quote]
    split
    · exact Or.inr ⟨_, fun n => rfl, by simp, by simp⟩
    · split
      · exact Or.inr ⟨_, fun n => rfl, by cases w <;> simp, by cases w <;> simp⟩
      · exact Or.inr ⟨_, fun n => rfl, by simp, by simp⟩
  | quoteEscape w => exact Or.inr ⟨_, fun n => rfl, by simp, by simp⟩
  | backslash =>
    simp only [step]
    split <;> exact Or.inr ⟨_, fun n => rfl, by simp, by simp⟩
  | backtick => exact hbacktick
  | protectedOnce d =>
    simp only [step]
    split
    · exact Or.inr ⟨_, fun n => rfl, by simp, by simp⟩
    · exact Or.inl fun n => rfl
  | protectedAgain d =>
    simp only [step]
    split
    · exact Or.inr ⟨_, fun n => rfl, by simp, by simp⟩
    · exact hbacktick
  | ampersand =>
    simp only [step]
    split
    · exact Or.inr ⟨_, fun n => rfl, by simp, by simp⟩
    · exact Or.inl fun n => rfl
  | bar =>
    simp only [step]
    split
    · exact Or.inr ⟨_, fun n => rfl, by simp, by simp⟩
    · exact Or.inl fun n => rfl

theorem nesting_step {c : Char} (h : c ∉ ['(', ')', '{', '}']) (s : Scan) :
    (s.step c).nesting = s.nesting := by
  rcases step_cases s.mode c with hs | ⟨mode, hs, -, -⟩
  · simp only [List.mem_cons, List.not_mem_nil, or_false, not_or] at h
    rw [hs s.nesting]
    simp [ofStart, step_eq, h]
  · rw [hs s.nesting]

theorem exists_mode_of_ready {s : Scan} (h : s.ready = true) :
    ∃ mode, s = ⟨mode, .top⟩ ∧ (∀ w q, mode ≠ .quote w q) ∧ ∀ w, mode ≠ .quoteEscape w := by
  obtain ⟨mode, parens, braces⟩ := s
  obtain ⟨⟨rfl, rfl⟩, hq⟩ : (parens = 0 ∧ braces = 0) ∧
      isQuoting ⟨mode, parens, braces⟩ = false := by
    simpa [ready, Nesting.isTop] using h
  refine ⟨mode, rfl, ?_, ?_⟩
  · rintro w q rfl
    cases hq
  · rintro w rfl
    cases hq

/-- Behind a space, a ready state has passed its token or stands in a word. -/
theorem step_space_of_ready {s : Scan} (h : s.ready = true) :
    s.step ' ' = ⟨.start, .top⟩ ∨ s.step ' ' = ⟨.word, .top⟩ := by
  obtain ⟨mode, rfl, hq, he⟩ := exists_mode_of_ready h
  cases mode with
  | quote w q => exact absurd rfl (hq w q)
  | quoteEscape w => exact absurd rfl (he w)
  | wordEscape => exact Or.inr rfl
  | backslash => exact Or.inr rfl
  | protectedAgain d =>
    left
    simp only [step]
    split <;> rfl
  | _ => exact Or.inl rfl

theorem step_semicolon_of_ready {s : Scan} (h : s.ready = true) :
    s.step ';' = ⟨.start, .top⟩ ∨ s.step ';' = ⟨.word, .top⟩ := by
  obtain ⟨mode, rfl, hq, he⟩ := exists_mode_of_ready h
  cases mode with
  | quote w q => exact absurd rfl (hq w q)
  | quoteEscape w => exact absurd rfl (he w)
  | wordEscape => exact Or.inr rfl
  | protectedAgain d =>
    left
    simp only [step]
    split <;> rfl
  | _ => exact Or.inl rfl

theorem found_cons_of_ne {s : Scan} {c : Char} (h : c ≠ '&') (h' : c ≠ '|') (t : Text) :
    s.found (c :: t) = (s.step c).found t := by
  rw [found, found?_of_ne h h']
  rfl

/-- A text without `&` and `|` has no connector. -/
theorem found_of_forall_ne {t : Text} (h : ∀ c ∈ t, c ≠ '&' ∧ c ≠ '|') (s : Scan) :
    s.found t = [] := by
  induction t generalizing s with
  | nil => rfl
  | cons c t ih =>
    obtain ⟨hand, hbar⟩ := h c List.mem_cons_self
    rw [found_cons_of_ne hand hbar]
    exact ih (fun d hd => h d (List.mem_cons_of_mem _ hd)) _

theorem after_cons (s : Scan) (c : Char) (t : Text) : s.after (c :: t) = (s.step c).after t := rfl

/-- A connector behind a ready state counts, and leads back to the initial state. -/
theorem connector_of_ready {s : Scan} (h : s.ready = true) (k : Connector) :
    s.found (" " ++ k.text ++ " ") = [k] ∧ s.after (" " ++ k.text ++ " ") = init := by
  obtain ⟨c, hk, hc⟩ : ∃ c, " " ++ k.text ++ " " = [' ', c, c, ' '] ∧ ∀ mode ∈ [.start, .word],
      (Scan.mk mode .top).found [c, c, ' '] = [k] ∧
        (Scan.mk mode .top).after [c, c, ' '] = init := by
    cases k
    · exact ⟨'&', rfl, by decide⟩
    · exact ⟨'|', rfl, by decide⟩
  rw [hk, found_cons_of_ne (by decide) (by decide), after_cons]
  rcases step_space_of_ready h with hs | hs <;> rw [hs]
  · exact hc _ (by simp)
  · exact hc _ (by simp)

/-- So does a pipe, without a connector. -/
theorem pipe_of_ready {s : Scan} (h : s.ready = true) : s.after [' ', '|', ' '] = init := by
  rw [after_cons]
  rcases step_space_of_ready h with hs | hs <;> rw [hs] <;> rfl

/-- And a `;`, even if the text before it ends in a backslash. -/
theorem semicolon_of_ready {s : Scan} (h : s.ready = true) : s.after [';', ' '] = init := by
  rw [after_cons]
  rcases step_semicolon_of_ready h with hs | hs <;> rw [hs] <;> rfl

/-! ### Groups and quotes that stay open -/

/-- The characters that may open or close a group or a quote, or protect what comes next. -/
def structural : List Char := ['(', ')', '{', '}', '\'', '"', '\\']

/-- Any other character leaves an open group or quote open. -/
theorem ready_of_ready_step {c : Char} (hc : c ∉ structural) {s : Scan}
    (h : (s.step c).ready = true) : s.ready = true := by
  simp only [structural, List.mem_cons, List.not_mem_nil, or_false, not_or] at hc
  obtain ⟨hopen, hclose, hopen', hclose', hsingle, hdouble, hback⟩ := hc
  have hnesting : (s.step c).nesting = s.nesting :=
    nesting_step (by simp [hopen, hclose, hopen', hclose']) s
  rw [ready, hnesting, Bool.and_eq_true] at h
  rw [ready, h.1, Bool.true_and, Bool.not_eq_true']
  have hquoting : (s.step c).isQuoting = false := by simpa using h.2
  obtain ⟨mode, n⟩ := s
  cases mode with
  | quote w q =>
    have hstay : (Scan.mk (.quote w q) n).step c = ⟨.quote w q, n⟩ := by
      rw [step_quote, if_neg (by simp [hback]), if_neg (by cases q <;> assumption)]
    rw [hstay] at hquoting
    cases hquoting
  | quoteEscape w => cases hquoting
  | _ => rfl

theorem ready_of_ready_after {t : Text} (ht : ∀ c ∈ t, c ∉ structural) {s : Scan}
    (h : (s.after t).ready = true) : s.ready = true := by
  induction t generalizing s with
  | nil => exact h
  | cons c t ih =>
    exact ready_of_ready_step (ht c List.mem_cons_self)
      (ih (fun d hd => ht d (List.mem_cons_of_mem _ hd)) h)

theorem ready_of_found? {s : Scan} {c : Char} {k : Connector} (h : s.found? c = some k) :
    s.ready = true := by
  unfold found? at h
  split at h
  · rename_i htop
    have hmode : s.mode = .ampersand ∨ s.mode = .bar := by
      split at h
      · exact Or.inl (by simp_all)
      · split at h
        · exact Or.inr (by simp_all)
        · cases h
    rw [ready, htop, isQuoting]
    rcases hmode with hmode | hmode <;> rw [hmode] <;> rfl
  · cases h

/-- In an open group or quote there is no connector. -/
theorem ready_of_found_ne_nil {t : Text} (ht : ∀ c ∈ t, c ∉ structural) {s : Scan}
    (h : s.found t ≠ []) : s.ready = true := by
  induction t generalizing s with
  | nil => exact absurd rfl h
  | cons c t ih =>
    cases hc : s.found? c with
    | some k => exact ready_of_found? hc
    | none =>
      rw [found, hc] at h
      exact ready_of_ready_step (ht c List.mem_cons_self)
        (ih (fun d hd => ht d (List.mem_cons_of_mem _ hd)) h)

/-- A connector counts exactly behind a ready state. -/
theorem ready_iff_found {s : Scan} : s.ready = true ↔ s.found [' ', '&', '&', ' '] = [.and] := by
  constructor
  · intro h
    exact (connector_of_ready h .and).1
  · intro h
    have hne : s.found [' ', '&', '&', ' '] ≠ [] := by
      rw [h]
      exact List.cons_ne_nil _ _
    exact ready_of_found_ne_nil (by decide) hne

/-- A state that is not ready sees no connector. -/
theorem found_connector_of_not_ready {s : Scan} (h : s.ready = false) :
    s.found [' ', '&', '&', ' '] = [] := by
  refine Decidable.byContradiction fun hne => ?_
  rw [ready_of_found_ne_nil (by decide) hne] at h
  cases h

theorem mode_step_space (s : Scan) : (s.step ' ').mode ≠ .ampersand ∧ (s.step ' ').mode ≠ .bar := by
  rcases step_cases s.mode ' ' with hs | ⟨mode, hs, ha, hb⟩
  · rw [hs s.nesting]
    exact ⟨ScanMode.noConfusion, ScanMode.noConfusion⟩
  · rw [hs s.nesting]
    exact ⟨ha, hb⟩

/-- What joins the parts of a pipeline or a sequence never is a connector. -/
theorem found_pipe (s : Scan) : s.found [' ', '|', ' '] = [] := by
  have hfound : (s.step ' ').found? '|' = none :=
    found?_of_mode (mode_step_space s).1 (mode_step_space s).2 '|'
  rw [found_cons_of_ne (by decide) (by decide), found, hfound,
    found_cons_of_ne (by decide) (by decide)]
  rfl

theorem found_semicolon (s : Scan) : s.found [';', ' '] = [] :=
  found_of_forall_ne (by decide) s

end Scan

/-! ## Blanks at the ends -/

theorem Scan.found_blank (s : Scan) {t : Text} (h : Blank t) : s.found t = [] := by
  refine Scan.found_of_forall_ne (fun c hc => ?_) s
  constructor <;> rintro rfl <;> exact absurd (h _ hc) (by decide)

theorem connectorsOf_trim (t : Text) : connectorsOf (trim t) = connectorsOf (trimFront t) := by
  obtain ⟨post, hpost, ht, -⟩ := Text.exists_eq_trimBack (trimFront t)
  rw [connectorsOf_eq_found, connectorsOf_eq_found, ht, Scan.found_append, Scan.found_blank _ hpost,
    List.append_nil]
  rfl

/-- Text that starts with at most one blank, a space. -/
inductive StartsPlain : Text → Prop
  /-- The empty text. -/
  | nil : StartsPlain []
  /-- A character that is not blank. -/
  | cons {c : Char} (h : Text.isBlank c = false) (t : Text) : StartsPlain (c :: t)
  /-- A space and a character that is not blank. -/
  | space {c : Char} (h : Text.isBlank c = false) (t : Text) : StartsPlain (' ' :: c :: t)

theorem StartsPlain.found_trimFront {t : Text} (h : StartsPlain t) :
    Scan.init.found (trimFront t) = Scan.init.found t := by
  cases h with
  | nil => rfl
  | cons h t => rw [Text.trimFront_of_head (by simpa using h)]
  | @space c h t =>
    have htrim : trimFront (' ' :: c :: t) = c :: t := by
      have happend := Text.trimFront_blank_append Text.blank_space (c :: t)
      rw [Text.trimFront_of_head (t := c :: t) (by simpa using h)] at happend
      exact happend
    have hspace : Scan.init.found (' ' :: c :: t) = (Scan.init.step ' ').found (c :: t) :=
      Scan.found_cons_of_ne (by decide) (by decide) _
    rw [htrim, hspace]
    rfl

/-- Trimming a text that something plain stands behind trims its front. -/
theorem StartsPlain.found_trimFront_append {t : Text} (h : StartsPlain t) (u : Text) :
    Scan.init.found (trimFront (u ++ t)) = Scan.init.found (trimFront u ++ t) := by
  obtain ⟨pre, hpre, hu, hfront⟩ := Text.exists_eq_trimFront u
  have htrim : trimFront (u ++ t) = trimFront (trimFront u ++ t) := by
    conv => lhs; rw [hu, List.append_assoc, Text.trimFront_blank_append hpre]
  rw [htrim]
  cases hc : trimFront u with
  | nil => exact h.found_trimFront
  | cons c v =>
    rw [hc] at hfront
    rw [Text.trimFront_of_head (by simpa using hfront)]

/-! ## Quiet texts and ready states -/

theorem and_glue : " " ++ Connector.and.text ++ " " = [' ', '&', '&', ' '] := rfl

theorem carries_iff_ready (u : Text) :
    connectorsOf (u ++ " && ") = connectorsOf u ++ [.and] ↔ (Scan.init.after u).ready = true := by
  rw [connectorsOf_eq_found, connectorsOf_eq_found, Scan.found_append, List.append_cancel_left_eq,
    Scan.ready_iff_found]
  rfl

section

variable {u : Text} (hfront : ∀ c ∈ u.head?, Text.isBlank c = false)
include hfront

theorem quiet_of_found (h : Scan.init.found u = []) : Quiet u := by
  rw [← connectorsOf_eq_found] at h
  exact ⟨h, by rwa [Text.trimFront_of_head hfront]⟩

theorem carries_of_ready (h : (Scan.init.after u).ready = true) : Carries u := by
  rw [← carries_iff_ready] at h
  exact ⟨h, by rwa [Text.trimFront_of_head hfront]⟩

end

end CrossShell
