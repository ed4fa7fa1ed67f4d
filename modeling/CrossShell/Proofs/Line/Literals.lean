import CrossShell.Proofs.Line.Composition
import CrossShell.Proofs.Text.Literal

/-!
# Literals in a line

A literal is written for PowerShell, where two quotes inside of it stand for one. A command line is
read in another way: there the first of the two ends a quoted run and the second starts the next.
Neither reading lets anything of the text out of the literal.

* `readLiteral?`: PowerShell's reading; `readLiteral?_eq_some_iff`: it reads what `singleQuoted`
  writes, and nothing else.
* `tokenizeFrom_singleQuoted`: the quoted runs of a literal, in front of any text.
* `operatorsOf_append_singleQuoted`: the operators of a line do not depend on the texts of the
  literals in it.
-/

namespace CrossShell

open Text

/-! ## The reading of PowerShell -/

/-- Reads a literal behind its opening quote, up to the first quote that is not doubled: what it
stands for, and what follows it. -/
def readLiteralRest? : Text → Option (Text × Text)
  | [] => none
  | '\'' :: '\'' :: cs => (readLiteralRest? cs).map fun (s, r) => ('\'' :: s, r)
  | '\'' :: cs => some ([], cs)
  | c :: cs => (readLiteralRest? cs).map fun (s, r) => (c :: s, r)

/-- Reads the literal at the start of a text. -/
def readLiteral? : Text → Option (Text × Text)
  | '\'' :: cs => readLiteralRest? cs
  | _ => none

theorem readLiteralRest?_quote {r : Text} (h : r.head? ≠ some '\'') :
    readLiteralRest? ('\'' :: r) = some ([], r) := by
  rw [readLiteralRest?]
  rintro cs rfl
  exact h rfl

theorem readLiteralRest?_cons {c : Char} (h : c ≠ '\'') (cs : Text) :
    readLiteralRest? (c :: cs) = (readLiteralRest? cs).map fun (s, r) => (c :: s, r) := by
  rw [readLiteralRest?]
  · rintro _ rfl
    exact absurd rfl h
  · exact h

theorem readLiteralRest?_double (s : Text) {r : Text} (h : r.head? ≠ some '\'') :
    readLiteralRest? (double '\'' s ++ '\'' :: r) = some (s, r) := by
  induction s with
  | nil => exact readLiteralRest?_quote h
  | cons c s ih =>
    by_cases hc : c = '\''
    · subst hc
      have hread : readLiteralRest? (double '\'' ('\'' :: s) ++ '\'' :: r) =
          (readLiteralRest? (double '\'' s ++ '\'' :: r)).map fun (s, r) => ('\'' :: s, r) := rfl
      rw [hread, ih]
      rfl
    · rw [double_cons, if_neg hc, List.append_assoc, List.singleton_append,
        readLiteralRest?_cons hc, ih]
      rfl

theorem eq_double_of_readLiteralRest? {t s r : Text} (h : readLiteralRest? t = some (s, r)) :
    t = double '\'' s ++ '\'' :: r ∧ r.head? ≠ some '\'' := by
  fun_induction readLiteralRest? t generalizing s with
  | case1 => cases h
  | case2 cs ih =>
    obtain ⟨⟨s', r'⟩, hread, heq⟩ := Option.map_eq_some_iff.mp h
    cases heq
    obtain ⟨rfl, hr⟩ := ih hread
    exact ⟨rfl, hr⟩
  | case3 cs hcs =>
    cases h
    refine ⟨rfl, fun hhead => ?_⟩
    obtain ⟨ds, rfl⟩ := List.head?_eq_some_iff.mp hhead
    exact hcs ds rfl
  | case4 c cs _ hc ih =>
    obtain ⟨⟨s', r'⟩, hread, heq⟩ := Option.map_eq_some_iff.mp h
    cases heq
    obtain ⟨rfl, hr⟩ := ih hread
    have hne : c ≠ '\'' := fun he => hc he
    refine ⟨?_, hr⟩
    rw [double_cons, if_neg hne]
    rfl

/-- PowerShell reads a literal exactly where one is written, and not beyond it. -/
theorem readLiteral?_eq_some_iff {t s r : Text} :
    readLiteral? t = some (s, r) ↔ t = singleQuoted s ++ r ∧ r.head? ≠ some '\'' := by
  have hwritten : singleQuoted s ++ r = '\'' :: (double '\'' s ++ '\'' :: r) := by
    simp [singleQuoted_eq_double]
  rw [hwritten]
  constructor
  · intro h
    unfold readLiteral? at h
    split at h
    · obtain ⟨rfl, hr⟩ := eq_double_of_readLiteralRest? h
      exact ⟨rfl, hr⟩
    · cases h
  · rintro ⟨rfl, hr⟩
    exact readLiteralRest?_double s hr

/-! ## The quoted runs of a literal -/

/-- A text between single quotes. -/
def enquote (part : Text) : Text := '\'' :: (part ++ ['\''])

/-- Runs of single quotes around some texts, one behind the other from a byte offset on. -/
def quotedRuns : (pos : Nat) → List Text → List Token
  | _, [] => []
  | pos, part :: parts =>
    ⟨enquote part, pos, pos + size (enquote part), some .single⟩ ::
      quotedRuns (pos + size (enquote part)) parts

/-- The token is a run of single quotes that is closed, and closed only at its end. -/
def Token.IsClosedRun (t : Token) : Prop :=
  t.quote = some .single ∧ ∃ part, '\'' ∉ part ∧ t.value = enquote part

/-- The tokens touch one another and cover the bytes from `start` to `stop`. -/
def Tiles : (start stop : Nat) → List Token → Prop
  | start, stop, [] => start = stop
  | start, stop, t :: ts => t.start = start ∧ Tiles t.stop stop ts

theorem splitOn_quote (s : Text) : splitOn '\'' ('\'' :: s) = [] :: splitOn '\'' s := rfl

/-- A literal is the runs around the parts between the quotes of its text. -/
theorem singleQuoted_eq_flatMap (s : Text) :
    singleQuoted s = (splitOn '\'' s).flatMap enquote := by
  rw [singleQuoted_eq_double]
  induction s with
  | nil => rfl
  | cons c s ih =>
    by_cases hc : c = '\''
    · subst hc
      rw [splitOn_quote, List.flatMap_cons, ← ih]
      rfl
    · obtain ⟨part, parts, hsplit, hcons⟩ := splitOn_cons hc s
      rw [hsplit, List.flatMap_cons, enquote, List.cons_append, List.cons.injEq] at ih
      rw [hcons, double_cons, if_neg hc, List.flatMap_cons, List.append_assoc, ih.2]
      rfl

theorem notMem_of_mem_splitOn {s part : Text} (h : part ∈ splitOn '\'' s) : '\'' ∉ part := by
  induction s generalizing part with
  | nil =>
    obtain rfl : part = [] := by simpa [splitOn] using h
    exact List.not_mem_nil
  | cons c s ih =>
    by_cases hc : c = '\''
    · subst hc
      rcases List.mem_cons.mp h with rfl | h
      · exact List.not_mem_nil
      · exact ih h
    · obtain ⟨first, parts, hsplit, hcons⟩ := splitOn_cons hc s
      rw [hcons] at h
      rw [hsplit] at ih
      rcases List.mem_cons.mp h with rfl | h
      · have hfirst := ih List.mem_cons_self
        simpa [Ne.symm hc] using hfirst
      · exact ih (List.mem_cons_of_mem _ h)

/-- A run ends at its closing quote, whatever stands behind it. -/
theorem quotedLength_run {part : Text} (h : '\'' ∉ part) (r : Text) :
    quotedLength .single (part ++ '\'' :: r) = part.length + 1 := by
  induction part with
  | nil => cases r <;> rfl
  | cons c part ih =>
    rw [List.mem_cons, not_or] at h
    have hchar : c ≠ Quote.single.char := Ne.symm h.1
    rw [List.cons_append, quotedLength_cons _ _ (by simp), if_neg (by simp), if_neg hchar, ih h.2]
    rfl

theorem tokenizeFrom_enquote {part : Text} (h : '\'' ∉ part) (pos : Nat) (r : Text) :
    tokenizeFrom pos 0 (enquote part ++ r) =
      ⟨enquote part, pos, pos + size (enquote part), some .single⟩ ::
        tokenizeFrom (pos + size (enquote part)) 0 r := by
  have hsplit : enquote part ++ r = '\'' :: (part ++ '\'' :: r) := by simp [enquote]
  have hlength : lexemeLength '\'' (part ++ '\'' :: r) = (enquote part).length := by
    have hquoted : lexemeLength '\'' (part ++ '\'' :: r) =
        quotedLength .single (part ++ '\'' :: r) + 1 := rfl
    rw [hquoted, quotedLength_run h]
    simp [enquote]
  have hlexeme : lexeme pos '\'' (part ++ '\'' :: r) =
      ⟨enquote part, pos, pos + size (enquote part), some .single⟩ := by
    unfold lexeme
    rw [hlength, ← hsplit, List.take_left]
    rfl
  rw [hsplit, tokenizeFrom_cons_of_not_isGap rfl, hlexeme, hlength, ← hsplit, List.drop_left]

theorem tokenizeFrom_flatMap_enquote {parts : List Text} (h : ∀ part ∈ parts, '\'' ∉ part)
    (pos : Nat) (r : Text) : tokenizeFrom pos 0 (parts.flatMap enquote ++ r) =
      quotedRuns pos parts ++ tokenizeFrom (pos + size (parts.flatMap enquote)) 0 r := by
  induction parts generalizing pos with
  | nil => rfl
  | cons part parts ih =>
    rw [List.flatMap_cons, List.append_assoc, tokenizeFrom_enquote (h part List.mem_cons_self),
      ih fun p hp => h p (List.mem_cons_of_mem _ hp), size_append, ← Nat.add_assoc]
    rfl

/-- A literal in front of any text is read as its runs, and the text as if it stood alone. -/
theorem tokenizeFrom_singleQuoted (pos : Nat) (s r : Text) :
    tokenizeFrom pos 0 (singleQuoted s ++ r) =
      quotedRuns pos (splitOn '\'' s) ++ tokenizeFrom (pos + size (singleQuoted s)) 0 r := by
  rw [singleQuoted_eq_flatMap]
  exact tokenizeFrom_flatMap_enquote (fun _ => notMem_of_mem_splitOn) pos r

theorem tokenize_singleQuoted (s : Text) :
    tokenize (singleQuoted s) = quotedRuns 0 (splitOn '\'' s) := by
  have hread := tokenizeFrom_singleQuoted 0 s []
  rwa [List.append_nil, tokenizeFrom, List.append_nil] at hread

theorem tiles_quotedRuns (pos : Nat) (parts : List Text) :
    Tiles pos (pos + size (parts.flatMap enquote)) (quotedRuns pos parts) := by
  induction parts generalizing pos with
  | nil => rfl
  | cons part parts ih =>
    rw [List.flatMap_cons, size_append, ← Nat.add_assoc]
    exact ⟨rfl, ih _⟩

theorem flatMap_value_quotedRuns (pos : Nat) (parts : List Text) :
    (quotedRuns pos parts).flatMap (·.value) = parts.flatMap enquote := by
  induction parts generalizing pos with
  | nil => rfl
  | cons part parts ih => rw [quotedRuns, List.flatMap_cons, List.flatMap_cons, ih]

theorem isClosedRun_of_mem_quotedRuns {parts : List Text} (hparts : ∀ part ∈ parts, '\'' ∉ part)
    {pos : Nat} {t : Token} (h : t ∈ quotedRuns pos parts) : t.IsClosedRun := by
  induction parts generalizing pos with
  | nil => cases h
  | cons part parts ih =>
    rcases List.mem_cons.mp h with rfl | h
    · exact ⟨rfl, part, hparts part List.mem_cons_self, rfl⟩
    · exact ih (fun p hp => hparts p (List.mem_cons_of_mem _ hp)) h

/-! ## Literals behind other text -/

/-- The operators of a line, as they are written, in order. -/
def operatorsOf (line : Text) : List Text :=
  ((tokenize line).filter (·.isOperator)).map (·.value)

theorem operatorsOf_eq (pos : Nat) (line : Text) :
    ((tokenizeFrom pos 0 line).filter (·.isOperator)).map (·.value) = operatorsOf line := by
  rw [tokenizeFrom_eq, List.filter_map, List.map_map]
  rfl

theorem operatorsOf_cons_of_isGap {c : Char} (h : isGap c = true) (cs : Text) :
    operatorsOf (c :: cs) = operatorsOf cs := by
  rw [operatorsOf, tokenize, tokenizeFrom_cons_of_isGap h, operatorsOf_eq]

theorem operatorsOf_cons_of_not_isGap {c : Char} (h : isGap c = false) (cs : Text) :
    operatorsOf (c :: cs) =
      (if (lexeme 0 c cs).isOperator then [(lexeme 0 c cs).value] else []) ++
        operatorsOf ((c :: cs).drop (lexemeLength c cs)) := by
  rw [operatorsOf, tokenize, tokenizeFrom_cons_of_not_isGap h, List.filter_cons]
  split
  · rw [List.map_cons, operatorsOf_eq]
    rfl
  · rw [operatorsOf_eq]
    rfl

theorem wordLength_none_step {c : Char} (hc : ¬(isGap c || isOperatorStart c) = true)
    (hslash : c ≠ '\\') (t : Text) :
    wordLength none (c :: t) = wordLength (Quote.ofChar? c) t + 1 := by
  cases t with
  | nil => cases Quote.ofChar? c <;> simp [wordLength, hc]
  | cons d t => rw [wordLength, if_neg hc, if_neg hslash]

theorem wordLength_some_step {q : Quote} {c : Char} (hslash : ¬(q = .double ∧ c = '\\'))
    (t : Text) : wordLength (some q) (c :: t) =
      wordLength (if c = q.char then none else some q) t + 1 := by
  cases t with
  | nil => split <;> rfl
  | cons d t =>
    rw [wordLength, if_neg hslash]
    split <;> rfl

/-- A word that leaves nothing open goes on with the text behind it. -/
theorem wordLength_append_of_complete {o : Option Quote} {w : Text}
    (hlength : wordLength o w = w.length) (hw : (Protection.mk o false).after w = .none)
    (r : Text) : wordLength o (w ++ r) = w.length + wordLength none r := by
  fun_induction wordLength o w with
  | case1 o =>
    obtain rfl : o = none := congrArg Protection.quote hw
    simp
  | case2 c hc => simp at hlength
  | case3 c hc =>
    have hslash : c ≠ '\\' := by
      rintro rfl
      cases hw
    have hquote : Quote.ofChar? c = none :=
      congrArg Protection.quote ((Protection.step_outside hslash).symm.trans hw)
    rw [List.singleton_append, wordLength_none_step hc hslash, hquote, Nat.add_comm]
    rfl
  | case4 q c =>
    by_cases hslash : q = .double ∧ c = '\\'
    · obtain ⟨rfl, rfl⟩ := hslash
      cases hw
    · have hclose : c = q.char := by
        by_contra hc
        rw [Protection.after_cons, Protection.step_inside hslash hc] at hw
        cases hw
      rw [List.singleton_append, wordLength_some_step hslash, if_pos hclose, Nat.add_comm]
      rfl
  | case5 c d cs hc => simp at hlength
  | case6 d cs hc ih =>
    rw [Protection.after_cons, Protection.step_backslash (by simp), Protection.after_cons,
      Protection.step_escaped] at hw
    rw [List.cons_append, List.cons_append, wordLength, if_neg hc, if_pos rfl,
      ih (by simpa using hlength) hw]
    simp only [List.length_cons]
    omega
  | case7 c d cs hc hs ih =>
    have hstep : Protection.step ⟨none, false⟩ c = ⟨Quote.ofChar? c, false⟩ :=
      Protection.step_outside hs
    rw [Protection.after_cons, hstep] at hw
    rw [List.cons_append, wordLength_none_step hc hs, ih (by simpa using hlength) hw]
    simp only [List.length_cons]
    omega
  | case8 q c d cs hc ih =>
    obtain ⟨rfl, rfl⟩ := hc
    rw [Protection.after_cons, Protection.step_backslash (by simp), Protection.after_cons,
      Protection.step_escaped] at hw
    rw [List.cons_append, List.cons_append, wordLength, if_pos ⟨rfl, rfl⟩,
      ih (by simpa using hlength) hw]
    simp only [List.length_cons]
    omega
  | case9 q d cs hq ih =>
    rw [Protection.after_cons, Protection.step_close] at hw
    rw [List.cons_append, wordLength_some_step hq, if_pos rfl, ih (by simpa using hlength) hw]
    simp only [List.length_cons]
    omega
  | case10 q c d cs hq hc ih =>
    rw [Protection.after_cons, Protection.step_inside hq hc] at hw
    rw [List.cons_append, wordLength_some_step hq, if_neg hc, ih (by simpa using hlength) hw]
    simp only [List.length_cons]
    omega

theorem wordLength_run {part : Text} (h : '\'' ∉ part) (r : Text) :
    wordLength (some .single) (part ++ '\'' :: r) = part.length + 1 + wordLength none r := by
  induction part with
  | nil =>
    have hclose : '\'' = Quote.single.char := rfl
    rw [List.nil_append, wordLength_some_step (by simp), if_pos hclose]
    simp only [List.length_nil]
    omega
  | cons c part ih =>
    rw [List.mem_cons, not_or] at h
    have hchar : c ≠ Quote.single.char := Ne.symm h.1
    rw [List.cons_append, wordLength_some_step (by simp), if_neg hchar, ih h.2]
    simp only [List.length_cons]
    omega

theorem wordLength_flatMap_enquote {parts : List Text} (h : ∀ part ∈ parts, '\'' ∉ part)
    (r : Text) : wordLength none (parts.flatMap enquote ++ r) =
      (parts.flatMap enquote).length + wordLength none r := by
  induction parts with
  | nil => simp
  | cons part parts ih =>
    have hsplit : (part :: parts).flatMap enquote ++ r =
        '\'' :: (part ++ '\'' :: (parts.flatMap enquote ++ r)) := by
      simp [enquote]
    have hquote : Quote.ofChar? '\'' = some .single := rfl
    rw [hsplit, wordLength_none_step (by decide) (by decide), hquote,
      wordLength_run (h part List.mem_cons_self), ih fun p hp => h p (List.mem_cons_of_mem _ hp)]
    simp only [enquote, List.flatMap_cons, List.length_append, List.length_cons, List.length_nil]
    omega

/-- In a word, a literal is passed over as a whole. -/
theorem wordLength_singleQuoted (s r : Text) :
    wordLength none (singleQuoted s ++ r) = (singleQuoted s).length + wordLength none r := by
  rw [singleQuoted_eq_flatMap]
  exact wordLength_flatMap_enquote (fun _ => notMem_of_mem_splitOn) r

/-- A quote behind a complete token either starts the next token, or goes on with the word. -/
theorem lexemeLength_before_quote {c : Char} {cs : Text} {pos : Nat}
    (h : (lexeme pos c cs).Complete) :
    (∀ r, lexemeLength c (cs ++ '\'' :: r) = lexemeLength c cs) ∨
      ∀ r, lexemeLength c (cs ++ '\'' :: r) = cs.length + 1 + wordLength none ('\'' :: r) := by
  cases hq : Quote.ofChar? c with
  | some q =>
    have hquoted : ∀ t, lexemeLength c t = quotedLength q t + 1 := fun t => by
      simp only [lexemeLength, hq]
    refine .inl fun r => ?_
    have hmin := quotedLength_eq_min q cs ('\'' :: r)
    by_cases hle : quotedLength q (cs ++ '\'' :: r) ≤ cs.length
    · rw [hquoted, hquoted]
      omega
    · -- The quote of the token would still be open at its end.
      have hopen := quote_after_of_quotedLength (q := q) (u := cs) (v := r) (e := '\'') rfl
        (by omega)
      have hslash : c ≠ '\\' := by
        rintro rfl
        cases hq
      have hwhole : lexemeLength c cs = (c :: cs).length := by
        rw [hquoted, List.length_cons]
        omega
      rw [Token.Complete, lexeme, hwhole, List.take_length, Protection.after_cons,
        Protection.step_outside hslash, hq] at h
      rw [h] at hopen
      cases hopen
  | none =>
    have hoperators : ∀ op ∈ operators, '\'' ∉ op := by decide +kernel
    have hstarts : ∀ r, startsOperator (cs ++ '\'' :: r) = startsOperator cs := by
      intro r
      cases cs <;> rfl
    have hoperator : ∀ r, operatorAt? (c :: (cs ++ '\'' :: r)) = operatorAt? (c :: cs) := fun r =>
      List.find?_congr fun op hop => isPrefixOf_append_cons (hoperators op hop) (c :: cs) r
    by_cases hbackslash : c = '\\' ∧ startsOperator cs = true
    · refine .inl fun r => ?_
      simp only [lexemeLength, hq, hstarts, if_pos hbackslash]
    by_cases hbacktick : c = '\x60' ∧ startsOperator cs = true
    · have hand : '\'' ∉ "&\x60&".toList := by decide
      have hor : '\'' ∉ "|\x60|".toList := by decide
      refine .inl fun r => ?_
      simp only [lexemeLength, hq, hstarts, if_neg hbackslash, if_pos hbacktick,
        isPrefixOf_append_cons hand, isPrefixOf_append_cons hor]
    cases hop : operatorAt? (c :: cs) with
    | some op =>
      refine .inl fun r => ?_
      simp only [lexemeLength, hq, hstarts, hoperator, hop, if_neg hbackslash, if_neg hbacktick]
    | none =>
      have hword : lexemeLength c cs = max 1 (wordLength none (c :: cs)) := by
        simp only [lexemeLength, hq, hop, if_neg hbackslash, if_neg hbacktick]
      have hword' : ∀ r, lexemeLength c (cs ++ '\'' :: r) =
          max 1 (wordLength none (c :: cs ++ '\'' :: r)) := fun r => by
        simp only [lexemeLength, hq, hstarts, hoperator, hop, if_neg hbackslash, if_neg hbacktick,
          List.cons_append]
      by_cases hwhole : wordLength none (c :: cs) = (c :: cs).length
      · refine .inr fun r => ?_
        have hlength : lexemeLength c cs = (c :: cs).length := by
          rw [hword, hwhole, List.length_cons]
          omega
        rw [Token.Complete, lexeme, hlength, List.take_length] at h
        rw [hword', wordLength_append_of_complete hwhole h, List.length_cons]
        omega
      · refine .inl fun r => ?_
        have hmin := wordLength_eq_min none (c :: cs) ('\'' :: r)
        rw [hword', hword]
        omega

theorem Token.IsClosedRun.not_operator {t : Token} (h : t.IsClosedRun) : t.isOperator = false := by
  rw [isOperator, h.1]
  rfl

theorem operatorsOf_singleQuoted_append (s post : Text) :
    operatorsOf (singleQuoted s ++ post) = operatorsOf post := by
  have hruns : (quotedRuns 0 (splitOn '\'' s)).filter (·.isOperator) = [] :=
    List.filter_eq_nil_iff.mpr fun t ht => by
      rw [(isClosedRun_of_mem_quotedRuns (fun _ => notMem_of_mem_splitOn) ht).not_operator]
      exact Bool.false_ne_true
  rw [operatorsOf, tokenize, tokenizeFrom_singleQuoted, List.filter_append, hruns, List.nil_append,
    operatorsOf_eq]

/-- A word that goes on with a literal is no operator, and ends where the text behind the literal
ends it. -/
theorem operatorsOf_word_singleQuoted {c : Char} (hgap : isGap c = false) {cs : Text}
    (h : ∀ r, lexemeLength c (cs ++ '\'' :: r) = cs.length + 1 + wordLength none ('\'' :: r))
    (s post : Text) : operatorsOf (c :: cs ++ (singleQuoted s ++ post)) =
      operatorsOf (post.drop (wordLength none post)) := by
  have hoperators : ∀ op ∈ operators, '\'' ∉ op := by decide +kernel
  have hcons : singleQuoted s ++ post = '\'' :: (double '\'' s ++ '\'' :: post) := by
    simp [singleQuoted_eq_double]
  have hlength : lexemeLength c (cs ++ (singleQuoted s ++ post)) =
      (c :: cs ++ singleQuoted s).length + wordLength none post := by
    rw [hcons, h, ← hcons, wordLength_singleQuoted]
    simp only [List.length_append, List.length_cons]
    omega
  have hvalue : (lexeme 0 c (cs ++ (singleQuoted s ++ post))).isOperator = false := by
    refine Bool.eq_false_iff.mpr fun hop => ?_
    have hmem := List.contains_iff_mem.mp (Bool.and_eq_true_iff.mp hop).2
    refine hoperators _ hmem ?_
    have hquote : '\'' ∈ singleQuoted s := by simp [singleQuoted_eq_double]
    rw [lexeme, hlength, ← List.cons_append, ← List.append_assoc, List.take_length_add_append]
    simp [hquote]
  have hdrop : (c :: (cs ++ (singleQuoted s ++ post))).drop
      ((c :: cs ++ singleQuoted s).length + wordLength none post) =
        post.drop (wordLength none post) := by
    rw [← List.cons_append, ← List.append_assoc, List.drop_length_add_append]
  rw [List.cons_append, operatorsOf_cons_of_not_isGap hgap, hvalue, hlength, hdrop]
  rfl

/-- The operators of a line that has a literal behind complete tokens do not depend on the text of
the literal: none of them is in it, and it hides none. -/
theorem operatorsOf_append_singleQuoted {pre : Text} {pos : Nat}
    (h : ∀ t ∈ tokenizeFrom pos 0 pre, t.Complete) (s s' post : Text) :
    operatorsOf (pre ++ (singleQuoted s ++ post)) =
      operatorsOf (pre ++ (singleQuoted s' ++ post)) := by
  -- Along the tokens in front of the literal: each of them is read alike in both lines, up to the
  -- last one, which may go on with the literal.
  induction hn : pre.length using Nat.strongRecOn generalizing pos pre with
  | ind n ih =>
    cases pre with
    | nil => rw [List.nil_append, List.nil_append, operatorsOf_singleQuoted_append,
        operatorsOf_singleQuoted_append]
    | cons c cs =>
      rw [List.length_cons] at hn
      cases hgap : isGap c with
      | true =>
        rw [tokenizeFrom_cons_of_isGap hgap] at h
        rw [List.cons_append, List.cons_append, operatorsOf_cons_of_isGap hgap,
          operatorsOf_cons_of_isGap hgap]
        exact ih cs.length (by omega) h rfl
      | false =>
        rw [tokenizeFrom_cons_of_not_isGap hgap] at h
        rcases lexemeLength_before_quote (h _ List.mem_cons_self) with hends | hgoes
        · have hpos := lexemeLength_pos c cs
          have hle := lexemeLength_le c cs
          have hsame : ∀ s, operatorsOf (c :: cs ++ (singleQuoted s ++ post)) =
              (if (lexeme 0 c cs).isOperator then [(lexeme 0 c cs).value] else []) ++
                operatorsOf ((c :: cs).drop (lexemeLength c cs) ++ (singleQuoted s ++ post)) := by
            intro s
            have hlength : lexemeLength c (cs ++ (singleQuoted s ++ post)) = lexemeLength c cs := by
              rw [singleQuoted_eq_double]
              exact hends _
            rw [List.cons_append, operatorsOf_cons_of_not_isGap hgap, lexeme_append hlength hle,
              hlength, ← List.cons_append, List.drop_append_of_le_length hle]
          rw [hsame, hsame, ih _ (by simp only [List.length_drop, List.length_cons]; omega)
            (fun t ht => h t (List.mem_cons_of_mem _ ht)) rfl]
        · rw [operatorsOf_word_singleQuoted hgap hgoes, operatorsOf_word_singleQuoted hgap hgoes]

/-! ## Nothing gets out of a literal -/

/-- A literal can be left neither by PowerShell's reading nor by reading the line again. PowerShell
reads it back and leaves what stands behind it. Read as a command line it consists of closed runs of
single quotes, which touch one another and cover it; and in whatever line it stands, the operators
of the line are the same for every text between its quotes. -/
theorem literal_not_escaped (s : Text) :
    (∀ r : Text, r.head? ≠ some '\'' → readLiteral? (singleQuoted s ++ r) = some (s, r)) ∧
      (tokenize (singleQuoted s)).flatMap (·.value) = singleQuoted s ∧
      Tiles 0 (size (singleQuoted s)) (tokenize (singleQuoted s)) ∧
      (∀ t ∈ tokenize (singleQuoted s),
        t.IsClosedRun ∧ t.isOperator = false ∧ t.isConnector = false) ∧
      ∀ pre post s' : Text, (∀ t ∈ tokenize pre, t.Complete) →
        operatorsOf (pre ++ singleQuoted s ++ post) =
          operatorsOf (pre ++ singleQuoted s' ++ post) := by
  refine ⟨fun r hr => readLiteral?_eq_some_iff.mpr ⟨rfl, hr⟩, ?_, ?_, ?_, ?_⟩
  · rw [tokenize_singleQuoted, flatMap_value_quotedRuns, singleQuoted_eq_flatMap]
  · have htiles := tiles_quotedRuns 0 (splitOn '\'' s)
    rwa [Nat.zero_add, ← singleQuoted_eq_flatMap, ← tokenize_singleQuoted] at htiles
  · intro t ht
    rw [tokenize_singleQuoted] at ht
    have hrun := isClosedRun_of_mem_quotedRuns (fun _ => notMem_of_mem_splitOn) ht
    refine ⟨hrun, hrun.not_operator, ?_⟩
    rw [Token.isConnector, hrun.1]
    rfl
  · intro pre post s' hpre
    rw [List.append_assoc, List.append_assoc]
    exact operatorsOf_append_singleQuoted hpre s s' post

/-- A text that is made to leave its literal. -/
def leavingText : Text := "';a && b'"

theorem literal_not_escaped_leavingText :
    readLiteral? (singleQuoted leavingText ++ ['|']) = some (leavingText, ['|']) ∧
      tokenize (singleQuoted leavingText) =
        [⟨"''".toList, 0, 2, some .single⟩, ⟨"';a && b'".toList, 2, 11, some .single⟩,
          ⟨"''".toList, 11, 13, some .single⟩] ∧
      (∀ t ∈ tokenize "x=(".toList, t.Complete) ∧
      operatorsOf ("x=(".toList ++ singleQuoted leavingText ++ ") | c".toList) =
        operatorsOf ("x=(".toList ++ singleQuoted [] ++ ") | c".toList) ∧
      operatorsOf ("x=(".toList ++ singleQuoted leavingText ++ ") | c".toList) =
        [['('], [')'], ['|']] := by
  have hpre : ∀ t ∈ tokenize "x=(".toList, t.Complete := by decide
  obtain ⟨hread, -, -, -, hline⟩ := literal_not_escaped leavingText
  exact ⟨hread _ (by decide), by decide, hpre, hline _ _ _ hpre, by decide⟩

end CrossShell
