import CrossShell.Stage
import CrossShell.Proofs.Stage.Sorting

/-!
# Commands of plain words

A command may be written in letters, digits and a few signs that mean nothing to a shell, one space
between its words. Each word is then one token, the first is the command, and nothing else
happens to the rest than that words with a dash in front become flags.

* `PlainWord`, `PlainCommand`: such words and commands.
* `PlainCommand.tokens`: the words with their places; `tagStage_text` says that these are the
  tokens of the command.
* `PlainWord.name_of_ofTagged?`: a plain word at the front of any stage is its command.
* `PlainCommand.ofTagged?_text`: the invocation of a command of plain words.
* `PlainCommand.convertStage?_text`: it is converted as this invocation is.
-/

namespace CrossShell

/-- A letter, a digit, or one of `.`, `/`, `_` and `-`. -/
def isWordChar (c : Char) : Bool := c.isAlphanum || c ∈ ['.', '/', '_', '-']

/-- A word of such characters. -/
structure PlainWord where
  /-- The word. -/
  text : Text
  ne_nil : text ≠ []
  isWordChar_of_mem : ∀ c ∈ text, isWordChar c = true

/-- A command of plain words, the first of which does not start with a dash. -/
structure PlainCommand where
  /-- The command word. -/
  name : PlainWord
  /-- The words behind it. -/
  arguments : List PlainWord
  head_name : name.text.head? ≠ some '-'

/-- Words with one space between them. -/
def wordsText (ws : List PlainWord) : Text := Text.join " " (ws.map PlainWord.text)

/-- The command as it is written. -/
def PlainCommand.text (s : PlainCommand) : Text := wordsText (s.name :: s.arguments)

/-! ## Characters -/

/-- The characters that end a word, quote or protect. -/
def wordBreaks : List Char :=
  [' ', '\t', '\n', '\x0c', '\r', '<', '>', '|', '&', ';', '(', ')', '{', '}', '\'', '"', '\\',
    '\x60']

theorem mem_wordBreaks_iff {c : Char} : c ∈ wordBreaks ↔ isPlain c = false := by
  rw [isPlain, Bool.not_eq_false']
  simp [wordBreaks, isGap, isOperatorStart, or_assoc]

theorem isPlain_of_isWordChar {c : Char} (h : isWordChar c = true) : isPlain c = true := by
  have hbreaks : ∀ d ∈ wordBreaks, isWordChar d = false := by decide
  by_contra hnot
  have hmem : c ∈ wordBreaks := mem_wordBreaks_iff.mpr (by simpa using hnot)
  rw [hbreaks c hmem] at h
  cases h

/-- The code points of these characters. -/
theorem toNat_of_isWordChar {c : Char} (h : isWordChar c = true) :
    45 ≤ c.toNat ∧ c.toNat ≤ 122 := by
  simp only [isWordChar, Bool.or_eq_true, decide_eq_true_eq, List.mem_cons, List.not_mem_nil,
    or_false] at h
  rcases h with halnum | rfl | rfl | rfl | rfl
  · have := Text.toNat_of_isAlphanum halnum
    omega
  all_goals decide

theorem isBlank_of_isWordChar {c : Char} (h : isWordChar c = true) : Text.isBlank c = false := by
  obtain ⟨hlow, hhigh⟩ := toNat_of_isWordChar h
  simp only [Text.isBlank, Text.inRanges, Text.blankRanges, List.any_cons, List.any_nil,
    Bool.or_false, Bool.or_eq_false_iff, Bool.and_eq_false_imp, decide_eq_true_eq,
    decide_eq_false_iff_not]
  omega

/-- Trimming keeps a first character that is not blank. -/
theorem Text.head?_trim {c : Char} (h : isBlank c = false) (t : Text) :
    (trim (c :: t)).head? = some c := by
  have hfront : trimFront (c :: t) = c :: t := trimFront_of_head (by simpa using h)
  obtain ⟨post, hpost, heq, -⟩ := exists_eq_trimBack (c :: t)
  rw [trim, hfront]
  cases hback : trimBack (c :: t) with
  | nil =>
    rw [hback, List.nil_append] at heq
    rw [hpost c (heq ▸ List.mem_cons_self)] at h
    cases h
  | cons d s =>
    rw [hback, List.cons_append] at heq
    rw [List.head?_cons, (List.cons.inj heq).1]

namespace PlainWord

variable (w : PlainWord)

theorem isPlain_of_mem : ∀ c ∈ w.text, isPlain c = true :=
  fun c hc => isPlain_of_isWordChar (w.isWordChar_of_mem c hc)

/-- A plain word is neither a redirection nor a connector nor a here-document. -/
theorem inert (pos : Nat) : (bare w.text pos).isRedirect = false ∧
    (bare w.text pos).isConnector = false ∧ (bare w.text pos).isHeredoc = false := by
  refine ⟨isRedirection_plain w.isPlain_of_mem, ?_, ?_⟩
  · have hstart : ∀ o ∈ [['&', '&'], ['|', '|'], ['|'], [';'], ['|', '&']],
        o.head?.any isOperatorStart = true := by decide
    have hnot : w.text ∉ [['&', '&'], ['|', '|'], ['|'], [';'], ['|', '&']] :=
      fun hmem => plain_ne w.isPlain_of_mem w.ne_nil (hstart _ hmem) rfl
    show ([['&', '&'], ['|', '|'], ['|'], [';'], ['|', '&']] : List Text).contains w.text = false
    simpa using hnot
  · have hnot : List.isPrefixOf ['<', '<'] w.text = false := by
      rw [Bool.eq_false_iff, ne_eq, List.isPrefixOf_iff_prefix]
      intro hfront
      exact absurd (w.isPlain_of_mem '<' (hfront.subset List.mem_cons_self)) (by decide)
    show (decide (2 < Text.size w.text) && List.isPrefixOf ['<', '<'] w.text) = false
    rw [hnot, Bool.and_false]

theorem isRedirectOperator_text (pos : Nat) : (bare w.text pos).isRedirectOperator = false := by
  have hstart : ∀ o ∈ [['>'], ['>', '>'], ['<']], o.head?.any isOperatorStart = true := by decide
  by_contra hnot
  have hmem := (Token.eq_of_isRedirectOperator (by simpa using hnot)).2
  exact plain_ne w.isPlain_of_mem w.ne_nil (hstart _ hmem) rfl

end PlainWord

/-! ## Tokens -/

/-- The words as tokens, the first at `pos`. -/
def wordTokensFrom : (pos : Nat) → List PlainWord → List Token
  | _, [] => []
  | pos, w :: ws => bare w.text pos :: wordTokensFrom (pos + (Text.size w.text + 1)) ws

theorem wordsText_cons (w : PlainWord) {ws : List PlainWord} (h : ws ≠ []) :
    wordsText (w :: ws) = w.text ++ ' ' :: wordsText ws := by
  cases ws with
  | nil => exact absurd rfl h
  | cons v ws => exact List.append_assoc w.text [' '] _

theorem startsApart_space (t : Text) : StartsApart (' ' :: t) := by
  intro c hc
  obtain rfl : ' ' = c := Option.some.inj hc
  rfl

/-- Plain words are read one by one. -/
theorem tokenizeFrom_wordsText (pos : Nat) (ws : List PlainWord) :
    tokenizeFrom pos 0 (wordsText ws) = wordTokensFrom pos ws := by
  induction ws generalizing pos with
  | nil => rfl
  | cons w ws ih =>
    cases ws with
    | nil =>
      have hlexes : Lexes w.text [] := lexes_plain w.ne_nil w.isPlain_of_mem (by simp [StartsApart])
      have hread := hlexes pos
      rw [List.append_nil] at hread
      exact hread
    | cons v ws =>
      rw [wordsText_cons w (by simp), lexes_plain w.ne_nil w.isPlain_of_mem (startsApart_space _),
        tokenizeFrom_cons_of_isGap rfl, ih]
      rfl

theorem exists_of_mem_wordTokensFrom {pos : Nat} {ws : List PlainWord} {t : Token}
    (h : t ∈ wordTokensFrom pos ws) : ∃ w ∈ ws, ∃ p, t = bare w.text p := by
  induction ws generalizing pos with
  | nil => cases h
  | cons w ws ih =>
    rcases List.mem_cons.mp h with rfl | h
    · exact ⟨w, List.mem_cons_self, pos, rfl⟩
    · obtain ⟨v, hv, p, rfl⟩ := ih h
      exact ⟨v, List.mem_cons_of_mem _ hv, p, rfl⟩

/-- Plain words stay as they are read. -/
theorem fused_wordsText (ws : List PlainWord) : fused (wordsText ws) = wordTokensFrom 0 ws := by
  have hsingle : ∀ t ∈ wordTokensFrom 0 ws, t.Single := by
    intro t ht
    obtain ⟨w, -, p, rfl⟩ := exists_of_mem_wordTokensFrom ht
    exact single_plain w.isPlain_of_mem w.ne_nil p
  have hoperator : ∀ t ∈ wordTokensFrom 0 ws, t.isRedirectOperator = false := by
    intro t ht
    obtain ⟨w, -, p, rfl⟩ := exists_of_mem_wordTokensFrom ht
    exact w.isRedirectOperator_text p
  rw [fused, fuse_eq, tokenize, tokenizeFrom_wordsText, fuseGroups_eq_self hsingle]
  refine coalesce_eq_self (fun t us hus => ?_) _
  cases us with
  | nil => rfl
  | cons next us =>
    have ht := hoperator t (hus.subset List.mem_cons_self)
    have hnext := hoperator next (hus.subset (List.mem_cons_of_mem _ List.mem_cons_self))
    simp [Fusion.extent, Fusion.descriptorRedirectionExtent, ht, hnext]

theorem stop_getLast_wordTokensFrom {pos : Nat} {ws : List PlainWord} {t : Token}
    (h : (wordTokensFrom pos ws).getLast? = some t) : t.stop = pos + Text.size (wordsText ws) := by
  induction ws generalizing pos with
  | nil => cases h
  | cons w ws ih =>
    cases ws with
    | nil =>
      obtain rfl : bare w.text pos = t := Option.some.inj h
      rfl
    | cons v ws =>
      have hrest : (wordTokensFrom (pos + (Text.size w.text + 1)) (v :: ws)).getLast? = some t := h
      have hspace : ' '.utf8Size = 1 := rfl
      rw [ih hrest, wordsText_cons w (by simp), Text.size_append, Text.size_cons, hspace]
      omega

/-! ## Invocations -/

namespace PlainWord

variable (w : PlainWord)

theorem tokenize_text : tokenize w.text = [bare w.text 0] := tokenizeFrom_wordsText 0 [w]

theorem fused_text : fused w.text = [bare w.text 0] := fused_wordsText [w]

/-- Whatever stands behind a plain word and a space, the word is a token. -/
theorem fused_text_append (rest : Text) : fused (w.text ++ ' ' :: rest) =
    bare w.text 0 :: (fused (' ' :: rest)).map (Token.shift (Text.size w.text)) := by
  have hcomplete : CompleteBefore ' ' w.text := by
    rw [CompleteBefore, tokenize_text, tokenize,
      lexes_plain w.ne_nil w.isPlain_of_mem (startsApart_space _), Nat.zero_add]
    rfl
  have hclosed : Closed w.text := by
    refine closed_of_single hcomplete fun t ht => ?_
    rw [tokenize_text, List.mem_singleton] at ht
    subst ht
    exact single_plain w.isPlain_of_mem w.ne_nil 0
  rw [fused_append_gap hcomplete hclosed rfl, fused_text]
  rfl

/-- At the front of a stage, a plain word with a space behind it is the command. -/
theorem name_of_ofTagged? {rest : Text} {inv : Invocation}
    (h : Invocation.ofTagged? (w.text ++ ' ' :: rest) (tagStage (w.text ++ ' ' :: rest)) =
      some inv) : inv.name = w.text := by
  have hfused : fuse (w.text ++ ' ' :: rest) (tokenize (w.text ++ ' ' :: rest)) = _ :=
    w.fused_text_append rest
  obtain ⟨hredirect, hconnector, -⟩ := w.inert 0
  rw [tagStage, hfused, tagRoles, tagRolesFrom, role_of_not_isRedirect hconnector hredirect,
    ← List.nil_append (_ :: tagRolesFrom _ _),
    Invocation.ofTagged?_append _ (by simp) rfl] at h
  obtain rfl := Option.some.inj h
  rfl

end PlainWord

namespace PlainCommand

variable (s : PlainCommand)

/-- The words behind the command word, with their roles. -/
def argumentTokens : List TaggedToken :=
  (wordTokensFrom (Text.size s.name.text + 1) s.arguments).map tagBehind

theorem inert_of_mem_tokens {pos : Nat} {ws : List PlainWord} :
    ∀ t ∈ wordTokensFrom pos ws, t.isRedirect = false ∧ t.isConnector = false ∧
      t.isHeredoc = false := by
  intro t ht
  obtain ⟨w, -, p, rfl⟩ := exists_of_mem_wordTokensFrom ht
  exact w.inert p

theorem tagStage_text : tagStage s.text = ⟨bare s.name.text 0, .command⟩ :: s.argumentTokens := by
  have hfused : fuse s.text (tokenize s.text) = wordTokensFrom 0 (s.name :: s.arguments) :=
    fused_wordsText _
  obtain ⟨hredirect, hconnector, -⟩ := s.name.inert 0
  rw [tagStage, hfused, wordTokensFrom, tagRoles, tagRolesFrom,
    role_of_not_isRedirect hconnector hredirect, Nat.zero_add,
    tagRolesFrom_false fun t ht => (inert_of_mem_tokens t ht).2.1]
  rfl

/-- The invocation of a command of plain words has its words and no redirections. -/
theorem ofTagged?_text : Invocation.ofTagged? s.text (tagStage s.text) =
    some ⟨s.name.text, s.text, s.argumentTokens, []⟩ := by
  have hinert : ∀ t ∈ wordTokensFrom (Text.size s.name.text + 1) s.arguments,
      t.isRedirect = false := fun t ht => (inert_of_mem_tokens t ht).1
  have hwords := Invocation.sortTokens_words hinert []
  rw [List.append_nil] at hwords
  rw [tagStage_text, ← List.nil_append (_ :: s.argumentTokens),
    Invocation.ofTagged?_append s.text (by simp) rfl, argumentTokens, hwords]
  simp [Invocation.sortTokens, TaggedToken.value, bare]

/-- A command of plain words is no group. -/
theorem isGrouped_text : isGrouped s.text = false := by
  obtain ⟨c, cs, hname⟩ := List.exists_cons_of_ne_nil s.name.ne_nil
  have hchar : isWordChar c = true := s.name.isWordChar_of_mem c (by simp [hname])
  obtain ⟨rest, htext⟩ : ∃ rest, s.text = c :: rest := by
    cases hargs : s.arguments with
    | nil => exact ⟨cs, by simp [text, wordsText, hargs, hname, Text.join]⟩
    | cons v vs =>
      rw [text, hargs, wordsText_cons _ (by simp), hname]
      exact ⟨_, rfl⟩
  have hparen : c ≠ '(' := by rintro rfl; revert hchar; decide
  have hbrace : c ≠ '{' := by rintro rfl; revert hchar; decide
  simp [isGrouped, htext, Text.head?_trim (isBlank_of_isWordChar hchar), hparen, hbrace]

/-- A command of plain words is converted as its invocation is. -/
theorem convertStage?_text {r : StageConverter} (h : r.target.needsConversion = true)
    (nested : Nested) : r.convertStage? nested s.text =
      r.convertInvocation? nested ⟨s.name.text, s.text, s.argumentTokens, []⟩ := by
  have hheredoc : (tagStage s.text).any (·.token.isHeredoc) = false := by
    rw [List.any_eq_false]
    intro t ht
    rw [tagStage_text] at ht
    rcases List.mem_cons.mp ht with rfl | ht
    · simpa using (s.name.inert 0).2.2
    · obtain ⟨u, hu, rfl⟩ := List.mem_map.mp ht
      have hnone : (tagBehind u).token.isHeredoc = false := (inert_of_mem_tokens u hu).2.2
      simp [hnone]
  rw [StageConverter.convertStage?]
  simp only [h, s.isGrouped_text, hheredoc, s.ofTagged?_text, Bool.not_true, Bool.or_false,
    Bool.false_eq_true, if_false, Option.bind_some]

end PlainCommand

end CrossShell
