import CrossShell.Proofs.Line.Connectors
import CrossShell.Proofs.Text.Literal
import CrossShell.Special.Pipeline
import CrossShell.Text.Number

/-!
# How written text is read again

A converted command is put together from fixed text, literals and words of the source. Whether a
connector in it or behind it counts depends on what the automaton for connectors makes of all of
that. This is worked out piece by piece: each piece leads from one point of the reading to another,
whatever groups are open around it, and pieces are composed.

* `Point`: what is known in between two pieces, `Leads` the pieces.
* `Leads.append`, `Leads.frame`, `Leads.enclose`: pieces behind and inside of one another.
* `Scan.run?_inside`: a text that closes only what it opens is read alike inside of further groups.
* `leads_of_checks`, `leads_literal`: so a few runs of the automaton decide what a fixed text does.
* `Leads.replace`: words in it can be exchanged if they have only ordinary characters.
* `leads_singleQuoted`, `leads_ofNat`, `leads_scriptBlock`, `leads_join`: pieces of many commands.
-/

namespace CrossShell

open Text (singleQuoted)

/-! ## Points of a reading -/

/-- How far a mode is from the start of a token. Only at level 4 a quote is open; up to level 2 an
operator that comes next is read as such. -/
def ScanMode.level : ScanMode → Nat
  | .start => 0
  | .word => 1
  | .protectedOnce _ | .ampersand | .bar => 2
  | .wordEscape | .backslash | .backtick | .protectedAgain _ => 3
  | .quote _ _ | .quoteEscape _ => 4

instance : Add Nesting := ⟨fun m n => ⟨m.parens + n.parens, m.braces + n.braces⟩⟩

theorem Nesting.add_def (m n : Nesting) : m + n = ⟨m.parens + n.parens, m.braces + n.braces⟩ := rfl

theorem Nesting.add_assoc (l m n : Nesting) : l + m + n = l + (m + n) := by
  simp only [add_def, Nat.add_assoc]

@[simp] theorem Nesting.top_add (n : Nesting) : .top + n = n := by
  simp only [add_def, top, Nat.zero_add]

/-- What is known at a point of a reading: the most that the level can be, and the groups that are
open there in addition to those around the text. -/
structure Point where
  /-- A bound for the level. -/
  level : Nat
  /-- The groups that the text has opened. -/
  opened : Nesting := .top
  deriving DecidableEq, Repr

namespace Point

/-- A token starts next. -/
def start : Point := ⟨0, .top⟩

/-- A token starts next, or a word goes on. -/
def settled : Point := ⟨1, .top⟩

/-- An operator that comes next is read as such. -/
def firm : Point := ⟨2, .top⟩

/-- No quote is open. -/
def resting : Point := ⟨3, .top⟩

/-- The same inside of some groups. -/
def under (n : Nesting) (p : Point) : Point := ⟨p.level, n + p.opened⟩

/-- Whether a state of the automaton is as a point says, if `outer` is open around the text. -/
def Holds (p : Point) (outer : Nesting) (s : Scan) : Prop :=
  s.mode.level ≤ p.level ∧ s.nesting = outer + p.opened

instance (p : Point) (outer : Nesting) (s : Scan) : Decidable (p.Holds outer s) :=
  inferInstanceAs (Decidable (_ ∧ _))

theorem Holds.mono {p q : Point} {outer : Nesting} {s : Scan} (h : p.Holds outer s)
    (hlevel : p.level ≤ q.level) (hopened : p.opened = q.opened) : q.Holds outer s :=
  ⟨Nat.le_trans h.1 hlevel, hopened ▸ h.2⟩

theorem holds_under {p : Point} {n outer : Nesting} {s : Scan} :
    (p.under n).Holds outer s ↔ p.Holds (outer + n) s := by
  unfold Holds under
  rw [Nesting.add_assoc]

end Point

/-- A text leads from one point to another: whatever is open around it, it has no connector, and
the reading ends where the second point says. -/
def Leads (p : Point) (t : Text) (q : Point) : Prop :=
  ∀ outer s, p.Holds outer s → s.found t = [] ∧ q.Holds outer (s.after t)

/-! ## Composition -/

section Composition

variable {p q r : Point} {t u : Text}

theorem leads_nil (p : Point) : Leads p [] p := fun _ _ h => ⟨rfl, h⟩

/-- A text that may be left out. -/
theorem Leads.optional {c : Prop} [Decidable c] (h : Leads p t p) :
    Leads p (if c then t else []) p := by
  split
  · exact h
  · exact leads_nil p

theorem Leads.append (ht : Leads p t q) (hu : Leads q u r) : Leads p (t ++ u) r := by
  intro outer s hs
  obtain ⟨hfound, hafter⟩ := ht outer s hs
  obtain ⟨hfound', hafter'⟩ := hu outer _ hafter
  rw [Scan.found_append, Scan.after_append, hfound, hfound']
  exact ⟨rfl, hafter'⟩

/-- More may be known before a text, and less is needed behind it. -/
theorem Leads.mono {p' q' : Point} (h : Leads p t q) (hp : p'.level ≤ p.level)
    (hp' : p'.opened = p.opened) (hq : q.level ≤ q'.level) (hq' : q.opened = q'.opened) :
    Leads p' t q' := by
  intro outer s hs
  obtain ⟨hfound, hafter⟩ := h outer s (hs.mono hp hp')
  exact ⟨hfound, hafter.mono hq hq'⟩

theorem Leads.relax {l l' : Nat} {k : Nesting} (h : Leads p t ⟨l, k⟩) (hl : l ≤ l') :
    Leads p t ⟨l', k⟩ :=
  h.mono (Nat.le_refl _) rfl hl rfl

/-- A text reads the same inside of groups. -/
theorem Leads.frame (h : Leads p t q) (n : Nesting) : Leads (p.under n) t (q.under n) := by
  intro outer s hs
  obtain ⟨hfound, hafter⟩ := h (outer + n) s (Point.holds_under.mp hs)
  exact ⟨hfound, Point.holds_under.mpr hafter⟩

/-- A text between one that opens groups and one that closes them. -/
theorem Leads.enclose {p' q' : Point} {n : Nesting} {opening closing : Text} (ht : Leads p t q)
    (ho : Leads p' opening (p.under n)) (hc : Leads (q.under n) closing q') :
    Leads p' (opening ++ t ++ closing) q' :=
  (ho.append (ht.frame n)).append hc

end Composition

/-! ## Texts inside of groups -/

namespace Scan

theorem nesting_ofWord (n : Nesting) (c : Char) :
    (ofWord n c).nesting = n.step ⟨[c], 0, 0, none⟩ := by
  unfold ofWord
  split
  · rfl
  · rename_i hc
    rw [Bool.or_eq_true, not_or, Bool.not_eq_true, Bool.not_eq_true] at hc
    split
    · exact (nesting_ofStart hc.2 n).symm
    · split <;> exact (nesting_ofStart hc.2 n).symm

theorem nesting_ofBacktick (n : Nesting) (c : Char) : (ofBacktick n c).nesting = n := by
  unfold ofBacktick
  split
  · rfl
  · split
    · rfl
    · rename_i hc
      rw [nesting_ofWord]
      exact nesting_ofStart (Bool.eq_false_iff.mpr hc) n

/-- Up to level 2, a bracket that comes next opens or closes a group. -/
theorem nesting_step_eq (m : ScanMode) (n : Nesting) (c : Char) : ((Scan.mk m n).step c).nesting =
    if m.level ≤ 2 then n.step ⟨[c], 0, 0, none⟩ else n := by
  cases m with
  | start => rfl
  | word => exact nesting_ofWord n c
  | protectedOnce d =>
    simp only [step]
    split
    · subst_vars
      rfl
    · rfl
  | ampersand =>
    simp only [step]
    split
    · subst_vars
      rfl
    · rfl
  | bar =>
    simp only [step]
    split
    · rename_i hc
      rcases hc with rfl | rfl <;> rfl
    · rfl
  | backtick => exact nesting_ofBacktick n c
  | protectedAgain d =>
    simp only [step]
    split
    · rfl
    · exact nesting_ofBacktick n c
  | quote w q =>
    rw [step_quote]
    split
    · rfl
    · split <;> rfl
  | _ => rfl

/-- Which mode comes next does not depend on the groups. -/
theorem mode_step_eq (m : ScanMode) (n n' : Nesting) (c : Char) :
    ((Scan.mk m n).step c).mode = ((Scan.mk m n').step c).mode := by
  rcases step_cases m c with hs | ⟨m', hs, -, -⟩
  · rw [hs, hs]
    rfl
  · rw [hs, hs]

/-- Whether a character closes a group that is not among those of the state. -/
def closesOutside (s : Scan) (c : Char) : Bool :=
  s.mode.level ≤ 2 && (c == ')' && s.nesting.parens == 0 || c == '}' && s.nesting.braces == 0)

/-- Any other character does the same inside of further groups. -/
theorem step_inside {m : ScanMode} {k : Nesting} {c : Char}
    (h : (Scan.mk m k).closesOutside c = false) (n : Nesting) :
    (Scan.mk m (n + k)).step c =
      ⟨((Scan.mk m k).step c).mode, n + ((Scan.mk m k).step c).nesting⟩ := by
  have hnesting : ((Scan.mk m (n + k)).step c).nesting = n + ((Scan.mk m k).step c).nesting := by
    rw [nesting_step_eq, nesting_step_eq]
    split
    · rename_i hlevel
      have hparens : c = ')' → k.parens ≠ 0 := by
        rintro rfl
        simpa [closesOutside, hlevel] using h
      have hbraces : c = '}' → k.braces ≠ 0 := by
        rintro rfl
        simpa [closesOutside, hlevel] using h
      simp only [step_eq, Nesting.add_def, Option.isNone_none, Bool.true_and, beq_iff_eq,
        List.cons.injEq, and_true]
      split
      · rfl
      split
      · rename_i hc
        have := hparens hc
        simp only [Nesting.mk.injEq, and_true]
        omega
      split
      · rfl
      split
      · rename_i hc
        have := hbraces hc
        simp only [Nesting.mk.injEq, true_and]
        omega
      · rfl
    · rfl
  rw [mode_step_eq m k (n + k) c, ← hnesting]

/-- The state behind a text, if the text has no connector and closes only what it has opened or
what the state has open. -/
def run? : Scan → Text → Option Scan
  | s, [] => some s
  | s, c :: cs => if (s.found? c).isSome || s.closesOutside c then none else (s.step c).run? cs

theorem run?_cons_eq_some {s s' : Scan} {c : Char} {cs : Text} :
    s.run? (c :: cs) = some s' ↔
      s.found? c = none ∧ s.closesOutside c = false ∧ (s.step c).run? cs = some s' := by
  rw [run?]
  cases s.found? c <;> cases s.closesOutside c <;> simp

/-- A run is the same inside of further groups. -/
theorem run?_inside {s s' : Scan} {t : Text} (h : s.run? t = some s') (n : Nesting) :
    (Scan.mk s.mode (n + s.nesting)).found t = [] ∧
      (Scan.mk s.mode (n + s.nesting)).after t = ⟨s'.mode, n + s'.nesting⟩ := by
  induction t generalizing s with
  | nil =>
    cases h
    exact ⟨rfl, rfl⟩
  | cons c t ih =>
    obtain ⟨hfound, hcloses, hrest⟩ := run?_cons_eq_some.mp h
    have hnone : (Scan.mk s.mode (n + s.nesting)).found? c = none := by
      unfold found? at hfound ⊢
      cases htop : (n + s.nesting).isTop with
      | false => rfl
      | true =>
        have hs : s.nesting.isTop = true := by
          simp only [Nesting.isTop, Nesting.add_def, Bool.and_eq_true, beq_iff_eq] at htop ⊢
          omega
        rw [hs] at hfound
        exact hfound
    rw [found, after_cons, hnone, step_inside hcloses]
    exact ih hrest

end Scan

/-! ## Ordinary characters -/

/-- The characters that mean something when a line is read. -/
def readChars : List Char :=
  [' ', '\t', '\n', '\x0c', '\r', '<', '>', '|', '&', ';', '(', ')', '{', '}', '\'', '"', '\\',
    '\x60']

/-- Whether a character is only a part of a word or of a quoted text. -/
def isOrdinary (c : Char) : Bool := !readChars.contains c

theorem isOrdinary_of {f : Char → Bool} (hf : ∀ d ∈ readChars, f d = false) {c : Char}
    (hc : f c = true) : isOrdinary c = true := by
  rw [isOrdinary, Bool.not_eq_true', ← Bool.not_eq_true, List.contains_iff_mem]
  intro hmem
  rw [hf c hmem] at hc
  cases hc

theorem ne_of_isOrdinary {c d : Char} (hc : isOrdinary c = true) (hd : d ∈ readChars) : c ≠ d := by
  rintro rfl
  simp [isOrdinary, hd] at hc

/-- An ordinary character ends no word. -/
theorem ends_of_isOrdinary {c : Char} (hc : isOrdinary c = true) :
    isGap c = false ∧ isOperatorStart c = false := by
  constructor <;> rw [Bool.eq_false_iff]
  · intro hgap
    rcases isGap_iff.mp hgap with h | h | h | h | h <;>
      exact ne_of_isOrdinary hc (by decide) h
  · intro hop
    rcases isOperatorStart_iff.mp hop with h | h | h | h | h | h | h | h | h <;>
      exact ne_of_isOrdinary hc (by decide) h

/-- The mode behind ordinary text. -/
def ScanMode.passed : ScanMode → ScanMode
  | .quote w q => .quote w q
  | .quoteEscape w => .quote w .double
  | _ => .word

namespace Scan

/-- An ordinary character continues a quoted text or a word, or starts a word. -/
theorem step_ordinary {c : Char} (hc : isOrdinary c = true) (m : ScanMode) (n : Nesting) :
    (Scan.mk m n).step c = ⟨m.passed, n⟩ ∨
      (Scan.mk m n).step c = ⟨.start, n⟩ ∧ ∃ d, m = .protectedAgain d := by
  have hne : ∀ d ∈ readChars, c ≠ d := fun d hd => ne_of_isOrdinary hc hd
  have hends := ends_of_isOrdinary hc
  have hquote : Quote.ofChar? c = none := by
    simp [Quote.ofChar?, hne '\'' (by decide), hne '"' (by decide)]
  have hstart : ofStart n c = ⟨.word, n⟩ := by
    simp [ofStart, hquote, hends, nesting_ofStart hends.2, hne '\\' (by decide),
      hne '\x60' (by decide), hne '&' (by decide), hne '|' (by decide)]
  have hword : ofWord n c = ⟨.word, n⟩ := by
    simp [ofWord, hquote, hends, hne '\\' (by decide)]
  have hbacktick : ofBacktick n c = ⟨.word, n⟩ := by
    simp [ofBacktick, hends, hword, hne '&' (by decide), hne '|' (by decide)]
  cases m with
  | start => exact Or.inl hstart
  | word => exact Or.inl hword
  | wordEscape => exact Or.inl rfl
  | quote w q =>
    left
    rw [step_quote, if_neg fun h => hne '\\' (by decide) h.2]
    cases q with
    | single => exact if_neg (hne '\'' (by decide))
    | double => exact if_neg (hne '"' (by decide))
  | quoteEscape w => exact Or.inl rfl
  | backslash =>
    left
    simp [step, hends, ScanMode.passed]
  | backtick => exact Or.inl hbacktick
  | protectedOnce d => exact Or.inl ((if_neg (hne '\x60' (by decide))).trans hstart)
  | protectedAgain d =>
    by_cases hcd : c = d
    · exact Or.inr ⟨if_pos hcd, d, rfl⟩
    · exact Or.inl ((if_neg hcd).trans hbacktick)
  | ampersand => exact Or.inl ((if_neg (hne '&' (by decide))).trans hstart)
  | bar =>
    have hc : ¬(c = '|' ∨ c = '&') := by simp [hne '&' (by decide), hne '|' (by decide)]
    exact Or.inl ((if_neg hc).trans hstart)

theorem step_ordinary_of_level {c : Char} (hc : isOrdinary c = true) {m : ScanMode}
    (hm : m.level ≤ 2) (n : Nesting) : (Scan.mk m n).step c = ⟨.word, n⟩ := by
  rcases step_ordinary hc m n with hs | ⟨-, d, rfl⟩
  · rw [hs]
    cases m <;> simp [ScanMode.level] at hm <;> rfl
  · simp [ScanMode.level] at hm

theorem passed_passed (m : ScanMode) : m.passed.passed = m.passed := by
  cases m <;> rfl

theorem passed_ne (m : ScanMode) (d : Char) : m.passed ≠ .protectedAgain d := by
  cases m <;> simp [ScanMode.passed]

theorem found_ordinary {t : Text} (h : ∀ c ∈ t, isOrdinary c = true) (s : Scan) :
    s.found t = [] := by
  refine found_of_forall_ne (fun c hc => ?_) s
  constructor <;> rintro rfl <;> exact absurd (h _ hc) (by decide)

theorem after_ordinary_of_passed {t : Text} (h : ∀ c ∈ t, isOrdinary c = true) {m : ScanMode}
    (hm : m.passed = m) (n : Nesting) : (Scan.mk m n).after t = ⟨m, n⟩ := by
  induction t with
  | nil => rfl
  | cons c t ih =>
    have hstep : (Scan.mk m n).step c = ⟨m, n⟩ := by
      rcases step_ordinary (h c List.mem_cons_self) m n with hs | ⟨-, d, rfl⟩
      · rw [hs, hm]
      · cases hm
    rw [after_cons, hstep]
    exact ih fun d hd => h d (List.mem_cons_of_mem _ hd)

/-- Two ordinary characters or more lead from any mode to a word or back to the quoted text. -/
theorem after_ordinary {t : Text} (h : ∀ c ∈ t, isOrdinary c = true) (hlength : 2 ≤ t.length)
    (s : Scan) : s.after t = ⟨s.mode.passed, s.nesting⟩ := by
  obtain ⟨m, n⟩ := s
  match t, hlength with
  | c :: d :: t, _ =>
    have hd := h d (by simp)
    have hrest := fun m => after_ordinary_of_passed (m := m)
      (fun e he => h e (List.mem_cons_of_mem _ (List.mem_cons_of_mem _ he)))
    rw [after_cons, after_cons]
    rcases step_ordinary (h c (by simp)) m n with hs | ⟨hs, e, rfl⟩
    · rcases step_ordinary hd m.passed n with hs' | ⟨-, e, he⟩
      · rw [hs, hs', passed_passed]
        exact hrest _ (passed_passed m) n
      · exact absurd he (passed_ne m e)
    · rcases step_ordinary hd .start n with hs' | ⟨-, e', he'⟩
      · rw [hs, hs']
        exact hrest _ rfl n
      · cases he'

end Scan

/-- Characters that are tokens of their own, or none, wherever operators are read as such. -/
def delimiters : List Char := [' ', '(', ')', '{', '}', ';']

/-- Characters that are written between words. -/
def spacers : List Char := [' ', ',', ';']

/-- Up to level 2, a delimiter is read as at the start of a token. -/
theorem Scan.step_eq_ofStart {m : ScanMode} (hm : m.level ≤ 2) {c : Char}
    (hc : c ∈ delimiters) (n : Nesting) : (Scan.mk m n).step c = ofStart n c := by
  have hends : ∀ c ∈ delimiters,
      (isGap c || isOperatorStart c) = true ∧ c ≠ '\x60' ∧ c ≠ '&' ∧ c ≠ '|' := by
    decide
  obtain ⟨hc, hbacktick, hampersand, hbar⟩ := hends c hc
  cases m with
  | start => rfl
  | word => exact if_pos hc
  | protectedOnce d => exact if_neg hbacktick
  | ampersand => exact if_neg hampersand
  | bar => exact if_neg (not_or.mpr ⟨hbar, hampersand⟩)
  | _ => simp [ScanMode.level] at hm

/-- Outside of quotes, a spacer ends what came before it or is a part of a word. -/
theorem Scan.level_step_spacer {m : ScanMode} (hm : m.level ≤ 3) {c : Char}
    (hc : c ∈ spacers) (n : Nesting) : ((Scan.mk m n).step c).mode.level ≤ 1 := by
  have hmodes : ∀ c ∈ spacers, c ≠ '\x60' ∧
      ∀ m ∈ [ScanMode.start, .word, .wordEscape, .backslash, .backtick, .ampersand, .bar],
        ((Scan.mk m .top).step c).mode.level ≤ 1 := by
    decide
  obtain ⟨hne, hmodes⟩ := hmodes c hc
  rw [mode_step_eq m n .top]
  cases m with
  | quote w q => simp [ScanMode.level] at hm
  | quoteEscape w => simp [ScanMode.level] at hm
  | protectedOnce d =>
    simp only [step, if_neg hne]
    exact hmodes .start (by simp)
  | protectedAgain d =>
    simp only [step]
    split
    · exact Nat.zero_le 1
    · exact hmodes .backtick (by simp)
  | _ => exact hmodes _ (by simp)

/-! ## Fixed texts -/

/-- The characters of `readChars`, as the bits of a number. -/
def readMask : Nat := 0x3800000110000000580003c500003600

theorem testBit_readMask : ∀ c ∈ readChars, readMask.testBit c.toNat = true := by decide

theorem isOrdinary_of_testBit {c : Char} (h : readMask.testBit c.toNat = false) :
    isOrdinary c = true := by
  refine isOrdinary_of (f := fun c => !readMask.testBit c.toNat) (fun d hd => ?_) ?_
  · rw [testBit_readMask d hd]
    rfl
  · rw [h]
    rfl

namespace Scan

/-- `run?` with a short way for ordinary characters and spaces. -/
def quickRun? : Scan → Text → Option Scan
  | s, [] => some s
  | s, c :: cs =>
    bif s.mode.level.ble 1 && !readMask.testBit c.toNat then quickRun? ⟨.word, s.nesting⟩ cs
    else bif s.mode.level.ble 1 && c.toNat.beq 32 then quickRun? ⟨.start, s.nesting⟩ cs
    else if (s.found? c).isSome || s.closesOutside c then none
    else quickRun? (s.step c) cs

/-- At the start of a token or in a word, a run goes on behind a character that closes no group. -/
theorem run?_cons_of_step {m : ScanMode} {n : Nesting} {c : Char} {s : Scan} (hm : m.level ≤ 1)
    (hparen : c ≠ ')') (hbrace : c ≠ '}') (hstep : (Scan.mk m n).step c = s) (t : Text) :
    run? ⟨m, n⟩ (c :: t) = run? s t := by
  have hfound : (Scan.mk m n).found? c = none := by
    refine found?_of_mode ?_ ?_ c <;> rintro (rfl : m = _) <;> simp [ScanMode.level] at hm
  have hcloses : (Scan.mk m n).closesOutside c = false := by
    simp [closesOutside, hparen, hbrace]
  rw [run?, hfound, hcloses, hstep]
  rfl

theorem quickRun?_eq (s : Scan) (t : Text) : s.quickRun? t = s.run? t := by
  induction t generalizing s with
  | nil => rfl
  | cons c t ih =>
    obtain ⟨m, n⟩ := s
    rw [quickRun?, ih, ih, ih]
    cases hlevel : m.level.ble 1 with
    | false => rfl
    | true =>
      have hm : m.level ≤ 1 := Nat.le_of_ble_eq_true hlevel
      cases hbit : readMask.testBit c.toNat with
      | false =>
        have hc := isOrdinary_of_testBit hbit
        have hstep := step_ordinary_of_level hc (Nat.le_succ_of_le hm) n
        exact (run?_cons_of_step hm (ne_of_isOrdinary hc (by decide))
          (ne_of_isOrdinary hc (by decide)) hstep t).symm
      | true =>
        cases hspace : c.toNat.beq 32 with
        | false => rfl
        | true =>
          have hc : c = ' ' := Char.toNat_inj.mp (Nat.eq_of_beq_eq_true hspace)
          subst hc
          have hstep := step_eq_ofStart (Nat.le_succ_of_le hm) (c := ' ') (by decide) n
          exact (run?_cons_of_step hm (by decide) (by decide) hstep t).symm

end Scan

section Literals

variable {q : Point} {k : Nesting} {c : Char} {t : Text}

/-- A run that ends at a point does so inside of any groups. -/
theorem Scan.holds_of_run {m : ScanMode} {s : Scan} (h : (Scan.mk m k).run? t = some s)
    (hq : q.Holds .top s) (outer : Nesting) : (Scan.mk m (outer + k)).found t = [] ∧
      q.Holds outer ((Scan.mk m (outer + k)).after t) := by
  obtain ⟨hfound, hafter⟩ := run?_inside h outer
  rw [hfound, hafter]
  exact ⟨rfl, hq.1, by rw [hq.2, Nesting.top_add]⟩

theorem leads_of_run {s : Scan} (h : (Scan.mk .start k).run? t = some s) (hq : q.Holds .top s) :
    Leads ⟨0, k⟩ t q := by
  rintro outer ⟨m, n⟩ ⟨hlevel, rfl⟩
  cases m with
  | start => exact Scan.holds_of_run h hq outer
  | _ => simp [ScanMode.level] at hlevel

/-- Whether a run ends at a point. -/
def Scan.runsTo (s : Scan) (t : Text) (q : Point) : Bool := (s.quickRun? t).any (q.Holds .top ·)

theorem Scan.exists_run_of_runsTo {s : Scan} (h : s.runsTo t q = true) :
    ∃ s', s.run? t = some s' ∧ q.Holds .top s' := by
  rw [runsTo, quickRun?_eq] at h
  cases hrun : s.run? t with
  | none =>
    rw [hrun] at h
    cases h
  | some s' =>
    rw [hrun] at h
    exact ⟨s', rfl, of_decide_eq_true h⟩

theorem leads_of_start (h : (Scan.mk .start k).runsTo t q = true) : Leads ⟨0, k⟩ t q := by
  obtain ⟨s, hrun, hq⟩ := Scan.exists_run_of_runsTo h
  exact leads_of_run hrun hq

theorem leads_of_settled (h : (Scan.mk .start k).runsTo t q = true)
    (h' : (Scan.mk .word k).runsTo t q = true) : Leads ⟨1, k⟩ t q := by
  obtain ⟨s, hrun, hq⟩ := Scan.exists_run_of_runsTo h
  obtain ⟨s', hrun', hq'⟩ := Scan.exists_run_of_runsTo h'
  rintro outer ⟨m, n⟩ ⟨hlevel, rfl⟩
  cases m with
  | start => exact Scan.holds_of_run hrun hq outer
  | word => exact Scan.holds_of_run hrun' hq' outer
  | _ => simp [ScanMode.level] at hlevel

/-- From a firm point, a delimiter is read as from the start of a token. -/
theorem Leads.of_firm (hc : c ∈ delimiters) (h : Leads ⟨0, k⟩ (c :: t) q) :
    Leads ⟨2, k⟩ (c :: t) q := by
  rintro outer ⟨m, n⟩ ⟨hlevel, rfl⟩
  have hne : ∀ c ∈ delimiters, c ≠ '&' ∧ c ≠ '|' := by decide
  obtain ⟨hfound, hafter⟩ := h outer ⟨.start, outer + k⟩ ⟨Nat.le_refl 0, rfl⟩
  rw [Scan.found_cons_of_ne (hne c hc).1 (hne c hc).2] at hfound ⊢
  rw [Scan.after_cons] at hafter ⊢
  rw [Scan.step_eq_ofStart hlevel hc]
  exact ⟨hfound, hafter⟩

/-- Outside of quotes, a spacer leads to a settled point. -/
theorem Leads.of_resting (hc : c ∈ spacers) (h : Leads ⟨1, k⟩ t q) :
    Leads ⟨3, k⟩ (c :: t) q := by
  rintro outer ⟨m, n⟩ ⟨hlevel, rfl⟩
  have hne : ∀ c ∈ spacers, c ≠ '&' ∧ c ≠ '|' ∧ c ∉ ['(', ')', '{', '}'] := by decide
  obtain ⟨hand, hbar, hbracket⟩ := hne c hc
  rw [Scan.found_cons_of_ne hand hbar, Scan.after_cons]
  exact h outer _ ⟨Scan.level_step_spacer hlevel hc _, Scan.nesting_step hbracket _⟩

/-- What a fixed text does, by runs from the modes that are possible in front of it or behind its
first character. -/
def checks (p : Point) (t : Text) (q : Point) : Bool :=
  match p.level, t with
  | 0, t => (Scan.mk .start p.opened).runsTo t q
  | 1, t => (Scan.mk .start p.opened).runsTo t q && (Scan.mk .word p.opened).runsTo t q
  | 2, c :: cs =>
    delimiters.contains c && (Scan.mk .start p.opened).runsTo (c :: cs) q
  | 3, c :: cs =>
    spacers.contains c &&
      ((Scan.mk .start p.opened).runsTo cs q && (Scan.mk .word p.opened).runsTo cs q)
  | _, _ => false

theorem leads_of_checks {p : Point} (h : checks p t q = true) : Leads p t q := by
  obtain ⟨level, k⟩ := p
  unfold checks at h
  split at h
  · rename_i hlevel
    obtain rfl : level = 0 := hlevel
    exact leads_of_start h
  · rename_i hlevel
    obtain rfl : level = 1 := hlevel
    rw [Bool.and_eq_true] at h
    exact leads_of_settled h.1 h.2
  · rename_i hlevel
    obtain rfl : level = 2 := hlevel
    rw [Bool.and_eq_true, List.contains_iff_mem] at h
    exact (leads_of_start h.2).of_firm h.1
  · rename_i hlevel
    obtain rfl : level = 3 := hlevel
    rw [Bool.and_eq_true, Bool.and_eq_true, List.contains_iff_mem] at h
    exact (leads_of_settled h.2.1 h.2.2).of_resting h.1
  · cases h

/-- A literal text is checked character by character. -/
theorem leads_literal {p : Point} {s : String} (hs : s = String.ofList t)
    (h : checks p t q = true) : Leads p s q := by
  subst hs
  rw [String.toList_ofList]
  exact leads_of_checks h

/-- So is a text of three literals, where a quote may be open in between. -/
theorem leads_literals {p : Point} {s s' s'' : String} {t' t'' : Text} (hs : s = String.ofList t)
    (hs' : s' = String.ofList t') (hs'' : s'' = String.ofList t'')
    (h : checks p (t ++ t' ++ t'') q = true) :
    Leads p (s.toList ++ s'.toList ++ s''.toList) q := by
  subst hs hs' hs''
  rw [String.toList_ofList, String.toList_ofList, String.toList_ofList]
  exact leads_of_checks h

end Literals

theorem leads_ordinary {l : Nat} (hl : 1 ≤ l) (hl' : l ≤ 2) {t : Text}
    (h : ∀ c ∈ t, isOrdinary c = true) : Leads ⟨l, .top⟩ t ⟨l, .top⟩ := by
  rintro outer ⟨m, n⟩ ⟨hlevel, hn⟩
  refine ⟨Scan.found_ordinary h _, ?_⟩
  cases t with
  | nil => exact ⟨hlevel, hn⟩
  | cons c t =>
    have hstep := Scan.step_ordinary_of_level (h c List.mem_cons_self)
      (Nat.le_trans hlevel hl') n
    rw [Scan.after_cons, hstep, Scan.after_ordinary_of_passed
      (fun d hd => h d (List.mem_cons_of_mem _ hd)) rfl]
    exact ⟨hl, hn⟩

theorem leads_ofNat (n : Nat) : Leads .settled (Text.ofNat n) .settled :=
  leads_ordinary (by decide) (by decide) fun _ hc => isOrdinary_of (f := Char.isDigit) (by decide)
    (Nat.isDigit_of_mem_toDigits (by decide) (by decide) hc)

/-! ## Replaced text -/

/-- Two texts without connectors that lead from every state to the same one. -/
def Interchangeable (u v : Text) : Prop :=
  ∀ s : Scan, s.found u = [] ∧ s.found v = [] ∧ s.after u = s.after v

/-- Ordinary texts of two characters or more are interchangeable. -/
theorem interchangeable_of_ordinary {u v : Text} (hu : ∀ c ∈ u, isOrdinary c = true)
    (hv : ∀ c ∈ v, isOrdinary c = true) (hu' : 2 ≤ u.length) (hv' : 2 ≤ v.length) :
    Interchangeable u v := by
  intro s
  rw [Scan.after_ordinary hu hu', Scan.after_ordinary hv hv']
  exact ⟨Scan.found_ordinary hu s, Scan.found_ordinary hv s, rfl⟩

theorem Interchangeable.replaceFrom {old new : Text} (h : Interchangeable old new) (hne : old ≠ [])
    (skip : Nat) (t : Text) (s : Scan) :
    s.found (Text.replaceFrom old new skip t) = s.found (t.drop skip) ∧
      s.after (Text.replaceFrom old new skip t) = s.after (t.drop skip) := by
  fun_induction Text.replaceFrom old new skip t generalizing s with
  | case1 => simp
  | case2 skip c cs ih => exact ih s
  | case3 c cs hpre ih =>
    obtain ⟨hold, hnew, hafter⟩ := h s
    have hsplit : c :: cs = old ++ cs.drop (old.length - 1) := by
      obtain ⟨rest, hrest⟩ := List.isPrefixOf_iff_prefix.mp hpre
      cases old with
      | nil => exact absurd rfl hne
      | cons d old =>
        obtain ⟨rfl, rfl⟩ := List.cons.inj hrest
        simp
    rw [List.drop_zero, hsplit, Scan.found_append, Scan.found_append, Scan.after_append,
      Scan.after_append, hold, hnew, hafter]
    exact ⟨by rw [(ih _).1], (ih _).2⟩
  | case4 c cs hpre ih =>
    rw [List.drop_zero, Scan.found, Scan.after_cons, Scan.found, Scan.after_cons]
    exact ⟨by rw [(ih _).1]; rfl, (ih _).2⟩

/-- Replacing text by interchangeable text changes nothing for what comes behind. -/
theorem Leads.replace {p q : Point} {old new t : Text} (hnew : Interchangeable old new)
    (hne : old ≠ []) (h : Leads p t q) : Leads p (Text.replace old new t) q := by
  intro outer s hs
  obtain ⟨hfound, hafter⟩ := hnew.replaceFrom hne 0 t s
  rw [Text.replace, hfound, hafter]
  exact h outer s hs

/-! ## Literals of the target -/

/-- Between single quotes, each pair of quotes leaves the literal and enters it again. -/
theorem Scan.double_inside (w : Bool) (n : Nesting) (t : Text) :
    (Scan.mk (.quote w .single) n).found (Text.double '\'' t) = [] ∧
      (Scan.mk (.quote w .single) n).after (Text.double '\'' t) = ⟨.quote w .single, n⟩ := by
  induction t with
  | nil => exact ⟨rfl, rfl⟩
  | cons c t ih =>
    rw [Text.double_cons]
    split
    · have hpair : (Scan.mk (.quote w .single) n).after ['\'', '\''] = ⟨.quote w .single, n⟩ := by
        cases w <;> rfl
      rw [Scan.found_append, Scan.after_append, hpair, ih.1, ih.2,
        Scan.found_of_forall_ne (by decide)]
      exact ⟨rfl, rfl⟩
    · rename_i hc
      have hstep : (Scan.mk (.quote w .single) n).step c = ⟨.quote w .single, n⟩ := by
        rw [step_quote, if_neg (by simp)]
        exact if_neg hc
      rw [List.singleton_append, Scan.found, Scan.after_cons, hstep, ih.1, ih.2,
        found?_of_mode (by simp) (by simp)]
      exact ⟨rfl, rfl⟩

/-- A literal reads as one, whatever it holds. -/
theorem leads_singleQuoted (t : Text) : Leads .settled (singleQuoted t) .settled := by
  rintro outer ⟨m, n⟩ ⟨hlevel, rfl⟩
  have hopen : ∃ w, (Scan.mk m (outer + Point.settled.opened)).step '\'' =
      ⟨.quote w .single, outer + Point.settled.opened⟩ := by
    cases m with
    | start => exact ⟨false, rfl⟩
    | word => exact ⟨true, rfl⟩
    | _ => simp [ScanMode.level, Point.settled] at hlevel
  obtain ⟨w, hopen⟩ := hopen
  obtain ⟨hfound, hafter⟩ := Scan.double_inside w (outer + Point.settled.opened) t
  rw [Text.singleQuoted_eq_double, Scan.found_cons_of_ne (by decide) (by decide), Scan.after_cons,
    hopen, Scan.found_append, Scan.after_append, hfound, hafter,
    Scan.found_of_forall_ne (t := ['\'']) (by decide)]
  cases w
  · exact ⟨rfl, Nat.zero_le 1, rfl⟩
  · exact ⟨rfl, Nat.le_refl 1, rfl⟩

/-! ## Lists and blocks -/

theorem leads_join {p : Point} {sep : Text} (hp : p.opened = .top) (hsep : Leads p sep .start)
    {ts : List Text} (h : ∀ t ∈ ts, Leads .start t p) : Leads .start (Text.join sep ts) p := by
  fun_induction Text.join sep ts with
  | case1 => exact (leads_nil .start).mono (Nat.le_refl 0) rfl (Nat.zero_le _) hp.symm
  | case2 t => exact h t List.mem_cons_self
  | case3 t u ts ih =>
    have hrest := ih fun v hv => h v (List.mem_cons_of_mem _ hv)
    exact ((h t List.mem_cons_self).append hsep).append hrest

theorem leads_scriptBlock {body : Text} (h : Leads .start body .resting) :
    Leads .settled (scriptBlock body) .settled :=
  h.enclose (n := ⟨0, 1⟩) (leads_literal rfl (by decide))
    (leads_literal rfl (by decide))

end CrossShell
