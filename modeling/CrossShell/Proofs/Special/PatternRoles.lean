import CrossShell.Special.Pattern

/-!
# Roles in a pattern

Basic and extended patterns are read in pairs of a backslash and a character, and bare characters.
They differ in which of the two is the operator, for seven characters. Writing a basic pattern in
the extended form swaps the two spellings and leaves every role as it is.

* `PatternForm.bare`, `PatternForm.escaped`: what a character is, alone and behind a backslash.
* `patternTokens`: the reading of a whole pattern.
* `patternTokens_extendedPattern`: the extended form is read as the basic one was.
* `extendedPattern_extendedPattern_iff`: writing a pattern over twice gives it back, unless it ends
  in a backslash without a character.
-/

namespace CrossShell

/-- What a piece of a pattern is to its reader. -/
inductive PatternToken where
  /-- An operator. -/
  | operator (c : Char)
  /-- A character that could be an operator and is meant literally. -/
  | literal (c : Char)
  /-- A character behind a backslash that is no operator either way. -/
  | escape (c : Char)
  /-- Any other character. -/
  | plain (c : Char)
  deriving DecidableEq, Repr

/-- The two forms of patterns. -/
inductive PatternForm where
  /-- Operators stand behind a backslash. -/
  | basic
  /-- Operators stand alone. -/
  | extended
  deriving DecidableEq, Repr

/-- The characters that are operators in one spelling and literal in the other. -/
def operatorChars : List Char := ['(', ')', '{', '}', '+', '?', '|']

namespace PatternForm

/-- What a character is without a backslash. -/
def bare (form : PatternForm) (c : Char) : PatternToken :=
  if c ∈ operatorChars then
    match form with
    | basic => .literal c
    | extended => .operator c
  else .plain c

/-- What a character is behind a backslash. -/
def escaped (form : PatternForm) (c : Char) : PatternToken :=
  if c ∈ operatorChars then
    match form with
    | basic => .operator c
    | extended => .literal c
  else .escape c

end PatternForm

/-- The reading of a pattern, from the left. A backslash at the end is an escaped one. -/
def patternTokens (form : PatternForm) : Text → List PatternToken
  | [] => []
  | ['\\'] => [.escape '\\']
  | '\\' :: c :: cs => form.escaped c :: patternTokens form cs
  | c :: cs => form.bare c :: patternTokens form cs

theorem isSwappedOperator_iff {c : Char} : isSwappedOperator c = true ↔ c ∈ operatorChars := by
  simp [isSwappedOperator, operatorChars]

theorem ne_slash_of_isSwappedOperator {c : Char} (h : isSwappedOperator c = true) : c ≠ '\\' := by
  rintro rfl
  cases h

/-! ## One piece at a time -/

theorem patternTokens_escaped (form : PatternForm) (c : Char) (cs : Text) :
    patternTokens form ('\\' :: c :: cs) = form.escaped c :: patternTokens form cs := by
  rw [patternTokens]

theorem patternTokens_bare (form : PatternForm) {c : Char} (hc : c ≠ '\\') (cs : Text) :
    patternTokens form (c :: cs) = form.bare c :: patternTokens form cs := by
  rw [patternTokens]
  · exact fun h _ => hc h
  · exact fun _ _ h _ => hc h

theorem extendedPattern_escaped (c : Char) (cs : Text) : extendedPattern ('\\' :: c :: cs) =
    if isSwappedOperator c then c :: extendedPattern cs else '\\' :: c :: extendedPattern cs := by
  rw [extendedPattern]

theorem extendedPattern_bare {c : Char} (hc : c ≠ '\\') (cs : Text) : extendedPattern (c :: cs) =
    if isSwappedOperator c then '\\' :: c :: extendedPattern cs else c :: extendedPattern cs := by
  rw [extendedPattern]
  · exact fun h _ => hc h
  · exact fun _ _ h _ => hc h

/-- A pattern is nothing, a lone backslash, or a pair or a bare character in front of a pattern. -/
@[elab_as_elim]
theorem patternInduction {motive : Text → Prop} (nil : motive []) (lone : motive ['\\'])
    (escaped : ∀ c cs, motive cs → motive ('\\' :: c :: cs))
    (bare : ∀ c cs, c ≠ '\\' → motive cs → motive (c :: cs)) : ∀ p, motive p
  | [] => nil
  | [c] =>
    if hc : c = '\\' then hc ▸ lone else bare c [] hc nil
  | c :: d :: cs =>
    if hc : c = '\\' then hc ▸ escaped d cs (patternInduction nil lone escaped bare cs)
    else bare c (d :: cs) hc (patternInduction nil lone escaped bare (d :: cs))

/-- The extended form of a basic pattern is read as the basic pattern is. -/
theorem patternTokens_extendedPattern (p : Text) :
    patternTokens .extended (extendedPattern p) = patternTokens .basic p := by
  induction p using patternInduction with
  | nil => rfl
  | lone => rfl
  | escaped c cs ih =>
    rw [extendedPattern_escaped, patternTokens_escaped .basic, PatternForm.escaped]
    split
    · rename_i hc
      rw [patternTokens_bare _ (ne_slash_of_isSwappedOperator hc), ih, PatternForm.bare,
        if_pos (isSwappedOperator_iff.mp hc), if_pos (isSwappedOperator_iff.mp hc)]
    · rename_i hc
      rw [patternTokens_escaped, ih, PatternForm.escaped, if_neg (mt isSwappedOperator_iff.mpr hc),
        if_neg (mt isSwappedOperator_iff.mpr hc)]
  | bare c cs hslash ih =>
    rw [extendedPattern_bare hslash, patternTokens_bare .basic hslash, PatternForm.bare]
    split
    · rename_i hc
      rw [patternTokens_escaped, ih, PatternForm.escaped, if_pos (isSwappedOperator_iff.mp hc),
        if_pos (isSwappedOperator_iff.mp hc)]
    · rename_i hc
      rw [patternTokens_bare _ hslash, ih, PatternForm.bare,
        if_neg (mt isSwappedOperator_iff.mpr hc), if_neg (mt isSwappedOperator_iff.mpr hc)]

/-! ## There and back -/

/-- The number of backslashes that a pattern ends in. If it is odd, the last of them is no part of a
pair. -/
def slashesAtEnd (p : Text) : Nat := (p.reverse.takeWhile (· == '\\')).length

theorem slashesAtEnd_append (s t : Text) : slashesAtEnd (s ++ t) =
    if slashesAtEnd t = t.length then t.length + slashesAtEnd s else slashesAtEnd t := by
  rw [slashesAtEnd, List.reverse_append, List.takeWhile_append, List.length_reverse, ← slashesAtEnd]
  split
  · rw [List.length_append, List.length_reverse]
    rfl
  · rfl

/-- Pairs in front of a text do not change whether its last backslash is part of one. -/
theorem slashesAtEnd_append_mod {s : Text} (hs : slashesAtEnd s % 2 = 0) (t : Text) :
    slashesAtEnd (s ++ t) % 2 = slashesAtEnd t % 2 := by
  rw [slashesAtEnd_append]
  split
  · omega
  · rfl

theorem slashesAtEnd_pair (c : Char) : slashesAtEnd ['\\', c] % 2 = 0 := by
  by_cases hc : c = '\\' <;> simp [slashesAtEnd, hc]

theorem slashesAtEnd_bare {c : Char} (hc : c ≠ '\\') : slashesAtEnd [c] % 2 = 0 := by
  simp [slashesAtEnd, hc]

/-- Writing a pattern over twice gives it back exactly if it does not end in a lone backslash. -/
theorem extendedPattern_extendedPattern_iff (p : Text) :
    extendedPattern (extendedPattern p) = p ↔ slashesAtEnd p % 2 = 0 := by
  induction p using patternInduction with
  | nil => decide
  | lone => decide
  | escaped c cs ih =>
    have hparity := slashesAtEnd_append_mod (slashesAtEnd_pair c) cs
    rw [List.cons_append, List.singleton_append] at hparity
    rw [hparity, ← ih, extendedPattern_escaped]
    split
    · rename_i hc
      rw [extendedPattern_bare (ne_slash_of_isSwappedOperator hc), if_pos hc]
      simp
    · rename_i hc
      rw [extendedPattern_escaped, if_neg hc]
      simp
  | bare c cs hslash ih =>
    have hparity := slashesAtEnd_append_mod (slashesAtEnd_bare hslash) cs
    rw [List.singleton_append] at hparity
    rw [hparity, ← ih, extendedPattern_bare hslash]
    split
    · rename_i hc
      rw [extendedPattern_escaped, if_pos hc]
      simp
    · rename_i hc
      rw [extendedPattern_bare hslash, if_neg hc]
      simp

/-- **Roles in a pattern.** The extended form of a pattern is read, piece by piece, as the basic
pattern was: operators, literal characters, escapes and all else. The spellings change places
without loss: doing it twice gives the pattern back exactly if it does not end in a lone backslash,
which is written as a pair. -/
theorem pattern_roles_kept (p : Text) :
    patternTokens .extended (extendedPattern p) = patternTokens .basic p ∧
      (extendedPattern (extendedPattern p) = p ↔ slashesAtEnd p % 2 = 0) :=
  ⟨patternTokens_extendedPattern p, extendedPattern_extendedPattern_iff p⟩

-- Two backslashes are a pair, so the parenthesis behind them is bare; a third one escapes it.
example : patternTokens .basic "\\\\(a".toList = [.escape '\\', .literal '(', .plain 'a'] ∧
    patternTokens .basic "\\\\\\(a".toList = [.escape '\\', .operator '(', .plain 'a'] := by
  decide

end CrossShell
