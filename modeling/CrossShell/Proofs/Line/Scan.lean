import CrossShell.Proofs.Line.Pieces
import CrossShell.Proofs.Text.Trim

/-!
# Finding connectors character by character

Reading a line into tokens looks ahead, and so says nothing about what happens when text is put
behind a line. An automaton over the characters finds the same connectors without looking ahead:
what it finds in `u ++ v` is what it finds in `u`, and then what it finds in `v` from the state that
`u` leaves.

* `Scan`: the state of the automaton, `scan` the connectors it finds.
* `scan_append`: it works from left to right.
* `scan_start`: it finds the connectors at which a line is cut.
* `Scan.found`: the connectors alone.
-/

namespace CrossShell

/-- What the characters since the start of a token amount to. -/
inductive ScanMode where
  /-- Nothing: the next character starts a token or is a gap. -/
  | start
  /-- A word, outside of quotes. -/
  | word
  /-- A word that ends in a backslash. -/
  | wordEscape
  /-- An open quote, in a word or as a token of its own. -/
  | quote (inWord : Bool) (q : Quote)
  /-- An open double quote that ends in a backslash. -/
  | quoteEscape (inWord : Bool)
  /-- A backslash. -/
  | backslash
  /-- A backtick. -/
  | backtick
  /-- A backtick and `&` or `|`. -/
  | protectedOnce (c : Char)
  /-- A backtick, `&` or `|`, and a backtick. -/
  | protectedAgain (c : Char)
  /-- `&` -/
  | ampersand
  /-- `|` -/
  | bar
  deriving DecidableEq, Repr

/-- The state of the automaton. -/
structure Scan where
  /-- What was read of the current token. -/
  mode : ScanMode
  /-- The open groups. -/
  nesting : Nesting
  deriving DecidableEq, Repr

namespace Scan

/-- Before a token that starts with `c`, or a gap. -/
def ofStart (n : Nesting) (c : Char) : Scan where
  mode :=
    match Quote.ofChar? c with
    | some q => .quote false q
    | none =>
      if c = '\\' then .backslash
      else if c = '\x60' then .backtick
      else if c = '&' then .ampersand
      else if c = '|' then .bar
      else if isGap c || isOperatorStart c then .start
      else .word
  nesting := n.step ⟨[c], 0, 0, none⟩

/-- Behind a word, which `c` may continue. -/
def ofWord (n : Nesting) (c : Char) : Scan :=
  if isGap c || isOperatorStart c then ofStart n c
  else match Quote.ofChar? c with
    | some q => ⟨.quote true q, n⟩
    | none => if c = '\\' then ⟨.wordEscape, n⟩ else ⟨.word, n⟩

/-- Behind a backtick that starts a token. -/
def ofBacktick (n : Nesting) (c : Char) : Scan :=
  if c = '&' ∨ c = '|' then ⟨.protectedOnce c, n⟩
  else if isOperatorStart c then ⟨.start, n⟩
  else ofWord n c

/-- The state behind a character. -/
def step (s : Scan) (c : Char) : Scan :=
  match s.mode with
  | .start => ofStart s.nesting c
  | .word => ofWord s.nesting c
  | .wordEscape => ⟨.word, s.nesting⟩
  | .quote inWord q =>
    if q = .double ∧ c = '\\' then ⟨.quoteEscape inWord, s.nesting⟩
    else if c = q.char then ⟨if inWord then .word else .start, s.nesting⟩
    else s
  | .quoteEscape inWord => ⟨.quote inWord .double, s.nesting⟩
  | .backslash => ⟨if isOperatorStart c then .start else .word, s.nesting⟩
  | .backtick => ofBacktick s.nesting c
  | .protectedOnce d => if c = '\x60' then ⟨.protectedAgain d, s.nesting⟩ else ofStart s.nesting c
  | .protectedAgain d => if c = d then ⟨.start, s.nesting⟩ else ofBacktick s.nesting c
  | .ampersand => if c = '&' then ⟨.start, s.nesting⟩ else ofStart s.nesting c
  | .bar => if c = '|' ∨ c = '&' then ⟨.start, s.nesting⟩ else ofStart s.nesting c

/-- The connector that a character completes outside of groups. -/
def found? (s : Scan) (c : Char) : Option Connector :=
  if s.nesting.isTop then
    if s.mode = .ampersand ∧ c = '&' then some .and
    else if s.mode = .bar ∧ c = '|' then some .or
    else none
  else none

/-- The state behind a text. -/
def after (s : Scan) (t : Text) : Scan := t.foldl step s

end Scan

/-- The connectors that the automaton finds in a text at byte offset `pos`. -/
def scan : Scan → (pos : Nat) → Text → List Token
  | _, _, [] => []
  | s, pos, c :: cs =>
    ((s.found? c).map fun k => ⟨k.text, pos - 1, pos + 1, none⟩).toList ++
      scan (s.step c) (pos + c.utf8Size) cs

theorem scan_append (s : Scan) (pos : Nat) (u v : Text) :
    scan s pos (u ++ v) = scan s pos u ++ scan (s.after u) (pos + Text.size u) v := by
  induction u generalizing s pos with
  | nil => rfl
  | cons c u ih =>
    simp only [List.cons_append, scan, ih, List.append_assoc, Text.size_cons, Nat.add_assoc]
    rfl

theorem scan_cons_of_found_none {s : Scan} {c : Char} (h : s.found? c = none) (pos : Nat)
    (cs : Text) : scan s pos (c :: cs) = scan (s.step c) (pos + c.utf8Size) cs := by
  rw [scan, h]
  rfl

/-- Only `&` and `|` complete a connector. -/
theorem found?_of_ne {s : Scan} {c : Char} (h : c ≠ '&') (h' : c ≠ '|') : s.found? c = none := by
  simp [Scan.found?, h, h']

theorem found?_of_mode {s : Scan} (h : s.mode ≠ .ampersand) (h' : s.mode ≠ .bar) (c : Char) :
    s.found? c = none := by
  simp [Scan.found?, h, h']

/-! ## Characters -/

theorem isGap_iff {c : Char} : isGap c = true ↔
    c = ' ' ∨ c = '\t' ∨ c = '\n' ∨ c = '\x0c' ∨ c = '\r' := by
  simp [isGap]

theorem isOperatorStart_iff {c : Char} : isOperatorStart c = true ↔
    c = '<' ∨ c = '>' ∨ c = '|' ∨ c = '&' ∨ c = ';' ∨ c = '(' ∨ c = ')' ∨ c = '{' ∨ c = '}' := by
  simp [isOperatorStart]

theorem operators_eq : operators =
    [['&', '&'], ['|', '|'], ['|', '&'], ['<', '<'], ['>', '>'], ['|'], [';'], ['<'], ['>'], ['('],
      [')'], ['{'], ['}']] := by
  decide +kernel

/-! ## Tokens that are neither connectors nor parts of groups -/

/-- A token at which nothing is cut and no group opens or closes. -/
structure Token.Inert (t : Token) : Prop where
  step : ∀ n : Nesting, n.step t = n
  connector : (t.quote.isNone && (Connector.ofText? t.value).isSome) = false

theorem step_eq (n : Nesting) (t : Token) : n.step t =
    if t.quote.isNone && t.value == ['('] then { n with parens := n.parens + 1 }
    else if t.quote.isNone && t.value == [')'] then { n with parens := n.parens - 1 }
    else if t.quote.isNone && t.value == ['{'] then { n with braces := n.braces + 1 }
    else if t.quote.isNone && t.value == ['}'] then { n with braces := n.braces - 1 }
    else n := rfl

theorem ofText?_eq (t : Text) : Connector.ofText? t =
    if t = ['&', '&'] then some .and else if t = ['|', '|'] then some .or else none := rfl

theorem Token.inert_of_value {t : Token} {c : Char} {cs : Text} (h : t.value = c :: cs)
    (hc : isOperatorStart c = false) : t.Inert := by
  have hne : ∀ d, isOperatorStart d = true → c ≠ d := by
    intro d hd he
    rw [he, hd] at hc
    cases hc
  constructor
  · intro n
    simp [step_eq, h, hne '(' (by decide), hne ')' (by decide), hne '{' (by decide),
      hne '}' (by decide)]
  · simp [ofText?_eq, h, hne '&' (by decide), hne '|' (by decide)]

/-! ## Words and quotes -/

theorem step_quote (inWord : Bool) (q : Quote) (n : Nesting) (c : Char) :
    (Scan.mk (.quote inWord q) n).step c =
      if q = .double ∧ c = '\\' then ⟨.quoteEscape inWord, n⟩
      else if c = q.char then ⟨if inWord then .word else .start, n⟩
      else ⟨.quote inWord q, n⟩ := rfl

theorem scan_quote_cons (inWord : Bool) (q : Quote) (n : Nesting) (pos : Nat) (c : Char)
    (cs : Text) :
    scan ⟨.quote inWord q, n⟩ pos (c :: cs) =
      scan ((Scan.mk (.quote inWord q) n).step c) (pos + c.utf8Size) cs :=
  scan_cons_of_found_none (found?_of_mode (by simp) (by simp) c) pos cs

theorem scan_quoteEscape_cons (inWord : Bool) (n : Nesting) (pos : Nat) (c : Char) (cs : Text) :
    scan ⟨.quoteEscape inWord, n⟩ pos (c :: cs) =
      scan ⟨.quote inWord .double, n⟩ (pos + c.utf8Size) cs :=
  scan_cons_of_found_none (found?_of_mode (by simp) (by simp) c) pos cs

/-- A quoted run that is a token of its own ends where its length says. -/
theorem scan_quote_start (q : Quote) (n : Nesting) (pos : Nat) (t : Text) :
    scan ⟨.quote false q, n⟩ pos t =
      scan ⟨.start, n⟩ (pos + Text.size (t.take (quotedLength q t)))
        (t.drop (quotedLength q t)) := by
  fun_induction quotedLength q t generalizing pos with
  | case1 => rfl
  | case2 c => rw [scan_quote_cons]; rfl
  | case3 c d cs h ih =>
    rw [scan_quote_cons, step_quote, if_pos h, scan_quoteEscape_cons, ← h.1, ih]
    simp [Nat.add_assoc]
  | case4 d cs h =>
    rw [scan_quote_cons, step_quote, if_neg h, if_pos rfl]
    simp
  | case5 c d cs h hc ih =>
    rw [scan_quote_cons, step_quote, if_neg h, if_neg hc, ih]
    simp [Nat.add_assoc]

/-- The mode of a word of which the part read so far ends inside a quote, or outside of any. -/
def ScanMode.inWord : Option Quote → ScanMode
  | none => .word
  | some q => .quote true q

theorem scan_word_cons (n : Nesting) (pos : Nat) (c : Char) (cs : Text) :
    scan ⟨.word, n⟩ pos (c :: cs) = scan (Scan.ofWord n c) (pos + c.utf8Size) cs :=
  scan_cons_of_found_none (found?_of_mode (by simp) (by simp) c) pos cs

theorem scan_wordEscape_cons (n : Nesting) (pos : Nat) (c : Char) (cs : Text) :
    scan ⟨.wordEscape, n⟩ pos (c :: cs) = scan ⟨.word, n⟩ (pos + c.utf8Size) cs :=
  scan_cons_of_found_none (found?_of_mode (by simp) (by simp) c) pos cs

theorem scan_start_cons (n : Nesting) (pos : Nat) (c : Char) (cs : Text) :
    scan ⟨.start, n⟩ pos (c :: cs) = scan (Scan.ofStart n c) (pos + c.utf8Size) cs :=
  scan_cons_of_found_none (found?_of_mode (by simp) (by simp) c) pos cs

/-- A word ends where its length says, and reading starts anew there. -/
theorem scan_inWord (o : Option Quote) (n : Nesting) (pos : Nat) (t : Text) :
    scan ⟨.inWord o, n⟩ pos t =
      scan ⟨.start, n⟩ (pos + Text.size (t.take (wordLength o t))) (t.drop (wordLength o t)) := by
  fun_induction wordLength o t generalizing pos with
  | case1 => rfl
  | case2 c h =>
    rw [ScanMode.inWord, scan_word_cons, Scan.ofWord, if_pos h]
    simp [scan_start_cons]
  | case3 c h => rw [ScanMode.inWord, scan_word_cons]; rfl
  | case4 q c => rw [ScanMode.inWord, scan_quote_cons]; rfl
  | case5 c d cs h =>
    rw [ScanMode.inWord, scan_word_cons, Scan.ofWord, if_pos h]
    simp [scan_start_cons]
  | case6 d cs h ih =>
    have hstep : Scan.ofWord n '\\' = ⟨.wordEscape, n⟩ := rfl
    rw [ScanMode.inWord, scan_word_cons, hstep, scan_wordEscape_cons]
    simp only [ScanMode.inWord] at ih
    rw [ih]
    simp [Nat.add_assoc]
  | case7 c d cs h hc ih =>
    have hstep : Scan.ofWord n c = ⟨.inWord (Quote.ofChar? c), n⟩ := by
      rw [Scan.ofWord, if_neg h]
      cases Quote.ofChar? c with
      | none => simp [hc, ScanMode.inWord]
      | some q => rfl
    rw [ScanMode.inWord, scan_word_cons, hstep, ih]
    simp [Nat.add_assoc]
  | case8 q c d cs h ih =>
    rw [ScanMode.inWord, scan_quote_cons, step_quote, if_pos h, scan_quoteEscape_cons, ← h.1]
    simp only [ScanMode.inWord] at ih
    rw [ih]
    simp [Nat.add_assoc]
  | case9 q d cs h ih =>
    rw [ScanMode.inWord, scan_quote_cons, step_quote, if_neg h, if_pos rfl]
    simp only [ScanMode.inWord] at ih
    simp [ih, Nat.add_assoc]
  | case10 q c d cs h hc ih =>
    rw [ScanMode.inWord, scan_quote_cons, step_quote, if_neg h, if_neg hc]
    simp only [ScanMode.inWord] at ih
    simp [ih, Nat.add_assoc]

/-! ## Modes that end where the next token starts -/

/-- A single `&` is a token by itself. -/
theorem scan_ampersand {cs : Text} (h : cs.head? ≠ some '&') (n : Nesting) (pos : Nat) :
    scan ⟨.ampersand, n⟩ pos cs = scan ⟨.start, n⟩ pos cs := by
  cases cs with
  | nil => rfl
  | cons c cs =>
    have hc : c ≠ '&' := by simpa using h
    have hfound : (Scan.mk .ampersand n).found? c = none := by simp [Scan.found?, hc]
    have hstep : (Scan.mk .ampersand n).step c = Scan.ofStart n c := if_neg hc
    rw [scan_cons_of_found_none hfound, scan_start_cons, hstep]

/-- A single `|` is a token by itself. -/
theorem scan_bar {cs : Text} (h : cs.head? ≠ some '|') (h' : cs.head? ≠ some '&') (n : Nesting)
    (pos : Nat) : scan ⟨.bar, n⟩ pos cs = scan ⟨.start, n⟩ pos cs := by
  cases cs with
  | nil => rfl
  | cons c cs =>
    have hc : c ≠ '|' := by simpa using h
    have hc' : c ≠ '&' := by simpa using h'
    have hfound : (Scan.mk .bar n).found? c = none := by simp [Scan.found?, hc]
    have hstep : (Scan.mk .bar n).step c = Scan.ofStart n c := if_neg (by simp [hc, hc'])
    rw [scan_cons_of_found_none hfound, scan_start_cons, hstep]

theorem scan_backtick_cons (n : Nesting) (pos : Nat) (c : Char) (cs : Text) :
    scan ⟨.backtick, n⟩ pos (c :: cs) = scan (Scan.ofBacktick n c) (pos + c.utf8Size) cs :=
  scan_cons_of_found_none (found?_of_mode (by simp) (by simp) c) pos cs

theorem scan_protectedOnce_cons (d : Char) (n : Nesting) (pos : Nat) (c : Char) (cs : Text) :
    scan ⟨.protectedOnce d, n⟩ pos (c :: cs) =
      scan (if c = '\x60' then ⟨.protectedAgain d, n⟩ else Scan.ofStart n c)
        (pos + c.utf8Size) cs :=
  scan_cons_of_found_none (found?_of_mode (by simp) (by simp) c) pos cs

theorem scan_protectedAgain_cons (d : Char) (n : Nesting) (pos : Nat) (c : Char) (cs : Text) :
    scan ⟨.protectedAgain d, n⟩ pos (c :: cs) =
      scan (if c = d then ⟨.start, n⟩ else Scan.ofBacktick n c) (pos + c.utf8Size) cs :=
  scan_cons_of_found_none (found?_of_mode (by simp) (by simp) c) pos cs

theorem ofStart_backtick (n : Nesting) : Scan.ofStart n '\x60' = ⟨.backtick, n⟩ := rfl

/-- A protected `&` or `|` that is not followed by a second one. -/
theorem scan_protectedOnce {d : Char} {cs : Text} (h : ¬['\x60', d] <+: cs) (n : Nesting)
    (pos : Nat) : scan ⟨.protectedOnce d, n⟩ pos cs = scan ⟨.start, n⟩ pos cs := by
  cases cs with
  | nil => rfl
  | cons c cs =>
    rw [scan_protectedOnce_cons, scan_start_cons]
    by_cases hc : c = '\x60'
    · subst hc
      rw [if_pos rfl, ofStart_backtick]
      cases cs with
      | nil => rfl
      | cons e cs =>
        have he : e ≠ d := by
          intro he
          exact h ⟨cs, by simp [he]⟩
        rw [scan_protectedAgain_cons, scan_backtick_cons, if_neg he]
    · rw [if_neg hc]

/-! ## Lexemes -/

theorem lexeme_stop (pos : Nat) (c : Char) (cs : Text) :
    (lexeme pos c cs).stop = pos + Text.size ((c :: cs).take (lexemeLength c cs)) := rfl

/-- What reading one token finds and leaves. -/
def PassesLexeme (n : Nesting) (pos : Nat) (c : Char) (cs : Text) : Prop :=
  scan ⟨.start, n⟩ pos (c :: cs) =
    (if (n.step (lexeme pos c cs)).isTop && connectorCutter.cuts () (lexeme pos c cs)
      then [lexeme pos c cs] else []) ++
    scan ⟨.start, n.step (lexeme pos c cs)⟩ (lexeme pos c cs).stop
      ((c :: cs).drop (lexemeLength c cs))

/-- For an inert token it is enough that reading goes on behind it. -/
theorem passesLexeme_of_inert {n : Nesting} {pos : Nat} {c : Char} {cs : Text}
    (hi : (lexeme pos c cs).Inert)
    (h : scan (Scan.ofStart n c) (pos + c.utf8Size) cs =
      scan ⟨.start, n⟩ (pos + Text.size ((c :: cs).take (lexemeLength c cs)))
        ((c :: cs).drop (lexemeLength c cs))) : PassesLexeme n pos c cs := by
  have hcuts : connectorCutter.cuts () (lexeme pos c cs) = false := hi.connector
  rw [PassesLexeme, hi.step, hcuts, scan_start_cons, lexeme_stop, h]
  simp

theorem nesting_ofStart {c : Char} (h : isOperatorStart c = false) (n : Nesting) :
    n.step ⟨[c], 0, 0, none⟩ = n :=
  (Token.inert_of_value rfl h).step n

/-- The text of a token is not empty: it starts with the first character. -/
theorem lexeme_value (pos : Nat) (c : Char) (cs : Text) :
    ∃ rest, (lexeme pos c cs).value = c :: rest := by
  obtain ⟨k, hk⟩ : ∃ k, lexemeLength c cs = k + 1 :=
    ⟨lexemeLength c cs - 1, by have := lexemeLength_pos c cs; omega⟩
  exact ⟨cs.take k, by simp [lexeme, hk]⟩

theorem inert_lexeme {c : Char} (h : isOperatorStart c = false) (pos : Nat) (cs : Text) :
    (lexeme pos c cs).Inert := by
  obtain ⟨rest, hv⟩ := lexeme_value pos c cs
  exact Token.inert_of_value hv h

theorem isOperatorStart_of_quote {c : Char} {q : Quote} (h : Quote.ofChar? c = some q) :
    isOperatorStart c = false := by
  unfold Quote.ofChar? at h
  split at h
  · subst_vars; decide
  · split at h
    · subst_vars; decide
    · cases h

theorem passesLexeme_quote {c : Char} {q : Quote} (h : Quote.ofChar? c = some q) (n : Nesting)
    (pos : Nat) (cs : Text) : PassesLexeme n pos c cs := by
  have hc := isOperatorStart_of_quote h
  refine passesLexeme_of_inert (inert_lexeme hc pos cs) ?_
  have hstart : Scan.ofStart n c = ⟨.quote false q, n⟩ := by
    simp [Scan.ofStart, h, nesting_ofStart hc]
  have hlength : lexemeLength c cs = quotedLength q cs + 1 := by simp [lexemeLength, h]
  rw [hstart, scan_quote_start, hlength]
  simp [Nat.add_assoc]

theorem exists_of_startsOperator {cs : Text} (h : startsOperator cs = true) :
    ∃ d ds, cs = d :: ds ∧ isOperatorStart d = true := by
  cases cs with
  | nil => cases h
  | cons d ds => exact ⟨d, ds, rfl, h⟩

theorem passesLexeme_backslash {cs : Text} (h : startsOperator cs = true) (n : Nesting)
    (pos : Nat) : PassesLexeme n pos '\\' cs := by
  refine passesLexeme_of_inert (inert_lexeme (by decide) pos cs) ?_
  obtain ⟨d, ds, rfl, hd⟩ := exists_of_startsOperator h
  have hlength : lexemeLength '\\' (d :: ds) = 2 := by simp [lexemeLength, Quote.ofChar?, h]
  have hstart : Scan.ofStart n '\\' = ⟨.backslash, n⟩ := rfl
  have hstep : (Scan.mk .backslash n).step d = ⟨.start, n⟩ := by simp [Scan.step, hd]
  rw [hstart, scan_cons_of_found_none (found?_of_mode (by simp) (by simp) d), hstep, hlength]
  simp [Nat.add_assoc]

theorem passesLexeme_backtick {cs : Text} (h : startsOperator cs = true) (n : Nesting)
    (pos : Nat) : PassesLexeme n pos '\x60' cs := by
  refine passesLexeme_of_inert (inert_lexeme (by decide) pos cs) ?_
  obtain ⟨d, ds, rfl, hd⟩ := exists_of_startsOperator h
  rw [ofStart_backtick, scan_backtick_cons, Scan.ofBacktick]
  by_cases hc : d = '&' ∨ d = '|'
  · rw [if_pos hc]
    by_cases hp : ['\x60', d] <+: ds
    · obtain ⟨ds, rfl⟩ := hp
      have hlength : lexemeLength '\x60' (d :: (['\x60', d] ++ ds)) = 4 := by
        rcases hc with rfl | rfl <;>
          simp [lexemeLength, Quote.ofChar?, startsOperator, isOperatorStart, List.isPrefixOf]
      rw [hlength, List.cons_append, scan_protectedOnce_cons, if_pos rfl, List.cons_append,
        scan_protectedAgain_cons, if_pos rfl]
      simp [Nat.add_assoc]
    · have hlength : lexemeLength '\x60' (d :: ds) = 2 := by
        rcases hc with rfl | rfl <;>
          simp [lexemeLength, Quote.ofChar?, startsOperator, isOperatorStart, hp]
      rw [scan_protectedOnce hp, hlength]
      simp [Nat.add_assoc]
  · have hlength : lexemeLength '\x60' (d :: ds) = 2 := by
      rw [not_or] at hc
      simp [lexemeLength, Quote.ofChar?, h, List.isPrefixOf, Ne.symm hc.1, Ne.symm hc.2]
    rw [if_neg hc, if_pos hd, hlength]
    simp [Nat.add_assoc]

/-! ## Operators -/

theorem lexeme_eq {c : Char} {cs : Text} {k : Nat} (hl : lexemeLength c cs = k)
    (hq : Quote.ofChar? c = none) (pos : Nat) :
    lexeme pos c cs =
      ⟨(c :: cs).take k, pos, pos + Text.size ((c :: cs).take k), none⟩ := by
  simp only [lexeme, hl, hq]

theorem passesLexeme_and (n : Nesting) (pos : Nat) (cs : Text) :
    PassesLexeme n pos '&' ('&' :: cs) := by
  have hlength : lexemeLength '&' ('&' :: cs) = 2 := by
    simp [lexemeLength, Quote.ofChar?, operatorAt?, operators_eq]
  have hlexeme : lexeme pos '&' ('&' :: cs) = ⟨['&', '&'], pos, pos + 2, none⟩ :=
    lexeme_eq hlength rfl pos
  have hcuts : connectorCutter.cuts () ⟨['&', '&'], pos, pos + 2, none⟩ = true := rfl
  have hnesting : n.step ⟨['&', '&'], pos, pos + 2, none⟩ = n := rfl
  have hstart : Scan.ofStart n '&' = ⟨.ampersand, n⟩ := rfl
  have hstep : (Scan.mk .ampersand n).step '&' = ⟨.start, n⟩ := rfl
  rw [PassesLexeme, hlexeme, hcuts, hnesting, hlength, scan_start_cons, hstart, scan, hstep]
  simp only [Scan.found?, Bool.and_true]
  cases n.isTop <;> rfl

theorem passesLexeme_or (n : Nesting) (pos : Nat) (cs : Text) :
    PassesLexeme n pos '|' ('|' :: cs) := by
  have hlength : lexemeLength '|' ('|' :: cs) = 2 := by
    simp [lexemeLength, Quote.ofChar?, operatorAt?, operators_eq]
  have hlexeme : lexeme pos '|' ('|' :: cs) = ⟨['|', '|'], pos, pos + 2, none⟩ :=
    lexeme_eq hlength rfl pos
  have hcuts : connectorCutter.cuts () ⟨['|', '|'], pos, pos + 2, none⟩ = true := rfl
  have hnesting : n.step ⟨['|', '|'], pos, pos + 2, none⟩ = n := rfl
  have hstart : Scan.ofStart n '|' = ⟨.bar, n⟩ := rfl
  have hstep : (Scan.mk .bar n).step '|' = ⟨.start, n⟩ := rfl
  rw [PassesLexeme, hlexeme, hcuts, hnesting, hlength, scan_start_cons, hstart, scan, hstep]
  simp only [Scan.found?, Bool.and_true]
  cases n.isTop <;> rfl

/-- The operators of one character at which nothing is cut. -/
def plainOperators : List Char := ['<', '>', ';', '(', ')', '{', '}']

theorem plainOperators_facts : ∀ c ∈ plainOperators, Quote.ofChar? c = none ∧
    (Connector.ofText? [c]).isSome = false ∧ (Scan.ofStart .top c).mode = .start := by
  decide

theorem passesLexeme_plain {c : Char} (hc : c ∈ plainOperators) {cs : Text}
    (hlength : lexemeLength c cs = 1) (n : Nesting) (pos : Nat) : PassesLexeme n pos c cs := by
  obtain ⟨hq, hconn, hmode⟩ := plainOperators_facts c hc
  have hlexeme : lexeme pos c cs = ⟨[c], pos, pos + Text.size [c], none⟩ := lexeme_eq hlength hq pos
  have hcuts : connectorCutter.cuts () ⟨[c], pos, pos + Text.size [c], none⟩ = false := hconn
  have hstate : Scan.ofStart n c = ⟨.start, n.step ⟨[c], pos, pos + Text.size [c], none⟩⟩ := by
    rw [← hmode]
    rfl
  rw [PassesLexeme, hlexeme, hcuts, hlength, scan_start_cons, hstate]
  simp

/-- Operators of two characters at which nothing is cut. -/
theorem passesLexeme_pair {c d : Char} {cs : Text} (hlength : lexemeLength c (d :: cs) = 2)
    (hi : ∀ pos stop, (Token.mk [c, d] pos stop none).Inert) (hq : Quote.ofChar? c = none)
    {n : Nesting} {pos : Nat}
    (hscan : scan (Scan.ofStart n c) (pos + c.utf8Size) (d :: cs) =
      scan ⟨.start, n⟩ (pos + c.utf8Size + d.utf8Size) cs) : PassesLexeme n pos c (d :: cs) := by
  refine passesLexeme_of_inert ?_ ?_
  · rw [lexeme_eq hlength hq]
    exact hi _ _
  · rw [hscan, hlength]
    simp [Nat.add_assoc]

theorem exists_of_head? {cs : Text} {c : Char} (h : cs.head? = some c) :
    ∃ rest, cs = c :: rest := by
  cases cs with
  | nil => cases h
  | cons d rest => exact ⟨rest, by simpa using h⟩

theorem passesLexeme_angle {c : Char} (hc : c = '<' ∨ c = '>') (n : Nesting) (pos : Nat)
    (cs : Text) : PassesLexeme n pos c cs := by
  by_cases h : cs.head? = some c
  · obtain ⟨cs, rfl⟩ := exists_of_head? h
    have hlength : lexemeLength c (c :: cs) = 2 := by
      rcases hc with rfl | rfl <;> simp [lexemeLength, Quote.ofChar?, operatorAt?, operators_eq]
    have hstart : Scan.ofStart n c = ⟨.start, n⟩ := by rcases hc with rfl | rfl <;> rfl
    refine passesLexeme_pair hlength ?_ ?_ ?_
    · rcases hc with rfl | rfl <;> exact fun _ _ => ⟨fun _ => rfl, rfl⟩
    · rcases hc with rfl | rfl <;> rfl
    · rw [hstart, scan_start_cons, hstart]
  · refine passesLexeme_plain (by rcases hc with rfl | rfl <;> decide) ?_ n pos
    cases cs with
    | nil => rcases hc with rfl | rfl <;> rfl
    | cons d cs =>
      have hd : c ≠ d := by simpa [eq_comm] using h
      rcases hc with rfl | rfl <;>
        simp [lexemeLength, Quote.ofChar?, operatorAt?, operators_eq, hd]

theorem passesLexeme_ampersand (n : Nesting) (pos : Nat) (cs : Text) :
    PassesLexeme n pos '&' cs := by
  by_cases h : cs.head? = some '&'
  · obtain ⟨cs, rfl⟩ := exists_of_head? h
    exact passesLexeme_and n pos cs
  · have hlength : lexemeLength '&' cs = 1 := by
      cases cs with
      | nil => rfl
      | cons c cs =>
        have hc : '&' ≠ c := by simpa [eq_comm] using h
        simp [lexemeLength, Quote.ofChar?, operatorAt?, operators_eq, hc, wordLength,
          isOperatorStart]
    have hstart : Scan.ofStart n '&' = ⟨.ampersand, n⟩ := rfl
    refine passesLexeme_of_inert ?_ ?_
    · rw [lexeme_eq hlength rfl]
      exact ⟨fun _ => rfl, rfl⟩
    · rw [hstart, scan_ampersand h, hlength]
      simp

theorem passesLexeme_bar (n : Nesting) (pos : Nat) (cs : Text) : PassesLexeme n pos '|' cs := by
  by_cases h : cs.head? = some '|'
  · obtain ⟨cs, rfl⟩ := exists_of_head? h
    exact passesLexeme_or n pos cs
  have hstart : Scan.ofStart n '|' = ⟨.bar, n⟩ := rfl
  by_cases h' : cs.head? = some '&'
  · obtain ⟨cs, rfl⟩ := exists_of_head? h'
    have hlength : lexemeLength '|' ('&' :: cs) = 2 := by
      simp [lexemeLength, Quote.ofChar?, operatorAt?, operators_eq]
    refine passesLexeme_pair hlength (fun _ _ => ⟨fun _ => rfl, rfl⟩) rfl ?_
    rw [hstart, scan_cons_of_found_none (by simp [Scan.found?])]
    rfl
  · have hlength : lexemeLength '|' cs = 1 := by
      cases cs with
      | nil => rfl
      | cons c cs =>
        have hc : '|' ≠ c := by simpa [eq_comm] using h
        have hc' : '&' ≠ c := by simpa [eq_comm] using h'
        simp [lexemeLength, Quote.ofChar?, operatorAt?, operators_eq, hc, hc']
    refine passesLexeme_of_inert ?_ ?_
    · rw [lexeme_eq hlength rfl]
      exact ⟨fun _ => rfl, rfl⟩
    · rw [hstart, scan_bar h h', hlength]
      simp

theorem passesLexeme_operator {c : Char} (hc : isOperatorStart c = true) (n : Nesting) (pos : Nat)
    (cs : Text) : PassesLexeme n pos c cs := by
  by_cases hangle : c = '<' ∨ c = '>'
  · exact passesLexeme_angle hangle n pos cs
  by_cases hamp : c = '&'
  · exact hamp ▸ passesLexeme_ampersand n pos cs
  by_cases hbar : c = '|'
  · exact hbar ▸ passesLexeme_bar n pos cs
  have hplain : c ∈ [';', '(', ')', '{', '}'] := by
    have := isOperatorStart_iff.mp hc
    simp only [List.mem_cons, List.not_mem_nil, or_false]
    grind
  have hsubset : ∀ d ∈ [';', '(', ')', '{', '}'], d ∈ plainOperators := by decide
  refine passesLexeme_plain (hsubset c hplain) ?_ n pos
  simp only [List.mem_cons, List.not_mem_nil, or_false] at hplain
  rcases hplain with rfl | rfl | rfl | rfl | rfl <;>
    simp [lexemeLength, Quote.ofChar?, operatorAt?, operators_eq]

/-! ## Words -/

theorem operatorAt?_eq_none {c : Char} (hc : isOperatorStart c = false) (cs : Text) :
    operatorAt? (c :: cs) = none := by
  have hheads : ∀ op ∈ operators, op.head?.any isOperatorStart = true := by decide +kernel
  refine List.find?_eq_none.mpr fun op hop hpre => ?_
  obtain ⟨rest, hrest⟩ := List.isPrefixOf_iff_prefix.mp hpre
  have hhead := hheads op hop
  cases op with
  | nil => simp at hhead
  | cons d op =>
    obtain ⟨rfl, -⟩ := List.cons.inj hrest
    simp [hc] at hhead

/-- A character that neither ends a word nor opens a quote starts a word, unless it protects the
next one. -/
theorem lexemeLength_word {c : Char} {cs : Text} (hc : isOperatorStart c = false)
    (hq : Quote.ofChar? c = none) (hs : ¬(c = '\\' ∧ startsOperator cs = true))
    (ht : ¬(c = '\x60' ∧ startsOperator cs = true)) :
    lexemeLength c cs = max 1 (wordLength none (c :: cs)) := by
  simp only [lexemeLength, hq, if_neg hs, if_neg ht, operatorAt?_eq_none hc]

theorem scan_backtick {cs : Text} (h : startsOperator cs = false) (n : Nesting) (pos : Nat) :
    scan ⟨.backtick, n⟩ pos cs = scan ⟨.word, n⟩ pos cs := by
  cases cs with
  | nil => rfl
  | cons c cs =>
    have hc : isOperatorStart c = false := h
    have hne : ¬(c = '&' ∨ c = '|') := by
      rintro (rfl | rfl) <;> cases hc
    rw [scan_backtick_cons, scan_word_cons, Scan.ofBacktick, if_neg hne, hc]
    rfl

theorem passesLexeme_word {c : Char} {cs : Text} (hg : isGap c = false)
    (hc : isOperatorStart c = false) (hq : Quote.ofChar? c = none)
    (hs : ¬(c = '\\' ∧ startsOperator cs = true))
    (ht : ¬(c = '\x60' ∧ startsOperator cs = true)) (n : Nesting) (pos : Nat) :
    PassesLexeme n pos c cs := by
  have hlength := lexemeLength_word hc hq hs ht
  have hstop : ¬((isGap c || isOperatorStart c) = true) := by simp [hg, hc]
  refine passesLexeme_of_inert (inert_lexeme hc pos cs) ?_
  rw [hlength]
  cases cs with
  | nil => simp [wordLength, hg, hc, scan]
  | cons d cs =>
    by_cases hbs : c = '\\'
    · -- The backslash hides the next character, whatever it is.
      subst hbs
      have hd : isOperatorStart d = false := by simpa [startsOperator] using hs
      have hstart : Scan.ofStart n '\\' = ⟨.backslash, n⟩ := rfl
      have hstep : (Scan.mk .backslash n).step d = ⟨.inWord none, n⟩ := by
        simp [Scan.step, hd, ScanMode.inWord]
      have hword : wordLength none ('\\' :: d :: cs) = wordLength none cs + 2 := by
        rw [wordLength, if_neg hstop, if_pos rfl]
      rw [hstart, scan_cons_of_found_none (found?_of_mode (by simp) (by simp) d), hstep,
        scan_inWord, hword, Nat.max_eq_right (by omega)]
      simp [Nat.add_assoc]
    · have hword : wordLength none (c :: d :: cs) = wordLength none (d :: cs) + 1 := by
        rw [wordLength, if_neg hstop, if_neg hbs, hq]
      have hscan : scan (Scan.ofStart n c) (pos + c.utf8Size) (d :: cs) =
          scan ⟨.inWord none, n⟩ (pos + c.utf8Size) (d :: cs) := by
        by_cases hbt : c = '\x60'
        · subst hbt
          have hd : startsOperator (d :: cs) = false := by simpa using ht
          rw [ofStart_backtick, scan_backtick hd]
          rfl
        · have hne : ∀ e, isOperatorStart e = true → c ≠ e := by
            rintro e he rfl
            rw [he] at hc
            cases hc
          have hstart : Scan.ofStart n c = ⟨.word, n⟩ := by
            simp [Scan.ofStart, hq, hbs, hbt, hg, hc, hne '&' rfl, hne '|' rfl, nesting_ofStart hc]
          rw [hstart]
          rfl
      rw [hscan, scan_inWord, hword, Nat.max_eq_right (by omega)]
      simp [Nat.add_assoc]

/-! ## The whole line -/

theorem passesLexeme {c : Char} (hg : isGap c = false) (n : Nesting) (pos : Nat) (cs : Text) :
    PassesLexeme n pos c cs := by
  cases hq : Quote.ofChar? c with
  | some q => exact passesLexeme_quote hq n pos cs
  | none =>
    by_cases hs : c = '\\' ∧ startsOperator cs = true
    · exact hs.1 ▸ passesLexeme_backslash hs.2 n pos
    by_cases ht : c = '\x60' ∧ startsOperator cs = true
    · exact ht.1 ▸ passesLexeme_backtick ht.2 n pos
    cases hc : isOperatorStart c with
    | true => exact passesLexeme_operator hc n pos cs
    | false => exact passesLexeme_word hg hc hq hs ht n pos

theorem ofStart_of_isGap {c : Char} (h : isGap c = true) (n : Nesting) :
    Scan.ofStart n c = ⟨.start, n⟩ := by
  rcases isGap_iff.mp h with rfl | rfl | rfl | rfl | rfl <;> rfl

/-- **The automaton finds the cuts.** From the start of a token, it finds exactly the connectors at
which a text is cut. -/
theorem scan_start (n : Nesting) (pos : Nat) (text : Text) :
    scan ⟨.start, n⟩ pos text = separators connectorCutter n () (tokenizeFrom pos 0 text) := by
  induction hk : text.length using Nat.strongRecOn generalizing n pos text with
  | ind k ih =>
    cases text with
    | nil => rfl
    | cons c cs =>
      cases hg : isGap c with
      | true =>
        rw [scan_start_cons, ofStart_of_isGap hg, tokenizeFrom_cons_of_isGap hg]
        exact ih cs.length (by simp at hk; omega) n _ cs rfl
      | false =>
        have hpos := lexemeLength_pos c cs
        have hrest := ih ((c :: cs).drop (lexemeLength c cs)).length (by simp at hk ⊢; omega)
          (n.step (lexeme pos c cs)) (lexeme pos c cs).stop _ rfl
        have hpass : PassesLexeme n pos c cs := passesLexeme hg n pos cs
        rw [PassesLexeme, hrest] at hpass
        rw [hpass, tokenizeFrom_cons_of_not_isGap hg, separators]
        have hnext : connectorCutter.next () (lexeme pos c cs) = () := rfl
        simp only [hnext]
        cases (n.step (lexeme pos c cs)).isTop <;>
          cases connectorCutter.cuts () (lexeme pos c cs) <;> rfl

/-! ## Connectors without their places -/

/-- The connectors that the automaton finds. -/
def Scan.found : Scan → Text → List Connector
  | _, [] => []
  | s, c :: cs => (s.found? c).toList ++ (s.step c).found cs

theorem Scan.found_append (s : Scan) (u v : Text) :
    s.found (u ++ v) = s.found u ++ (s.after u).found v := by
  induction u generalizing s with
  | nil => rfl
  | cons c u ih =>
    simp only [List.cons_append, Scan.found, ih, List.append_assoc]
    rfl

theorem Scan.after_append (s : Scan) (u v : Text) : s.after (u ++ v) = (s.after u).after v := by
  rw [Scan.after, Scan.after, Scan.after, List.foldl_append]

theorem filterMap_scan (s : Scan) (pos : Nat) (t : Text) :
    (scan s pos t).filterMap (fun token => Connector.ofText? token.value) = s.found t := by
  induction t generalizing s pos with
  | nil => rfl
  | cons c t ih =>
    rw [scan, Scan.found, List.filterMap_append, ih]
    cases s.found? c with
    | none => rfl
    | some k => cases k <;> rfl

/-- Outside of groups and before a token. -/
def Scan.init : Scan := ⟨.start, .top⟩

end CrossShell
