import CrossShell.Proofs.Token.Redirect

/-!
# The grammar of a redirection

A redirection is a descriptor, an operator, and what stands behind the operator. The grammar can be
read in more than one way from the left: digits may be a descriptor or a number behind the operator,
and an angle may be one operator or half of one. The recogniser decides by the first character that
is no digit and by the angles that follow, and accepts the same words.

* `DescriptorText`, `DuplicateText`, `TargetText`, `OperatorText`: the parts of the grammar.
* `isDuplicate_iff`, `isRedirectTarget_iff`, `isPlainRedirection_iff`: the recogniser of each part.
* `isRedirection_iff_grammar`: the recogniser of the whole.
-/

namespace CrossShell

/-! ## The grammar -/

/-- What is redirected: `&`, or decimal digits, of which there may be none. -/
def DescriptorText (p : Text) : Prop :=
  p = ['&'] ∨ ∀ c ∈ p, Text.isDecimalDigit c = true

/-- Nothing, `-`, or a run of decimal digits, behind an optional `&`. -/
def DuplicateText (r : Text) : Prop :=
  ∃ mark number, r = mark ++ number ∧ (mark = [] ∨ mark = ['&']) ∧
    (number = [] ∨ number = ['-'] ∨ number ≠ [] ∧ ∀ c ∈ number, Text.isDecimalDigit c = true)

/-- A target: its first character is none of four, and no later one is a line feed. -/
def TargetText (r : Text) : Prop :=
  ∃ c cs, r = c :: cs ∧ c ∉ ['&', '<', '>', '('] ∧ '\n' ∉ cs

/-- An operator with what may stand behind it. -/
def OperatorText (o r : Text) : Prop :=
  o ∈ [['>'], ['>', '>'], ['<'], ['<', '<']] ∧ DuplicateText r ∨
    o ∈ [['>'], ['>', '>'], ['<']] ∧ TargetText r

/-! ## Behind the operator -/

theorem isDuplicate_of_head?_ne {t : Text} (h : t.head? ≠ some '&') :
    isDuplicate t = (t == ['-'] || t.all Text.isDecimalDigit) := by
  unfold isDuplicate
  split
  · exact absurd rfl h
  · rfl

theorem isDecimalDigit_ampersand : Text.isDecimalDigit '&' = false := by decide +kernel

theorem isDuplicate_iff {r : Text} : isDuplicate r = true ↔ DuplicateText r := by
  have hnumber (number : Text) : (number == ['-'] || number.all Text.isDecimalDigit) = true ↔
      number = [] ∨ number = ['-'] ∨
        number ≠ [] ∧ ∀ c ∈ number, Text.isDecimalDigit c = true := by
    cases number <;> simp
  constructor
  · intro h
    by_cases hmark : r.head? = some '&'
    · obtain ⟨number, rfl⟩ := List.head?_eq_some_iff.mp hmark
      exact ⟨['&'], number, rfl, .inr rfl, (hnumber number).mp h⟩
    · rw [isDuplicate_of_head?_ne hmark] at h
      exact ⟨[], r, rfl, .inl rfl, (hnumber r).mp h⟩
  · rintro ⟨mark, number, rfl, rfl | rfl, h⟩
    · -- A number never starts with the mark, so the recogniser does not skip anything.
      have hmark : number.head? ≠ some '&' := by
        intro hhead
        obtain ⟨rest, rfl⟩ := List.head?_eq_some_iff.mp hhead
        simp [isDecimalDigit_ampersand] at h
      rw [List.nil_append, isDuplicate_of_head?_ne hmark]
      exact (hnumber number).mpr h
    · exact (hnumber number).mpr h

theorem isRedirectTarget_iff {r : Text} : isRedirectTarget r = true ↔ TargetText r := by
  cases r with
  | nil => simp [isRedirectTarget, TargetText]
  | cons c cs =>
    have hfeed : (cs.all (· != '\n')) = true ↔ '\n' ∉ cs := by
      rw [List.all_eq_true]
      exact ⟨fun h hmem => by simpa using h _ hmem, fun h d hd => by
        rw [bne_iff_ne]
        rintro rfl
        exact h hd⟩
    have hfirst : (!(c == '&' || c == '<' || c == '>' || c == '(')) = true ↔
        c ∉ ['&', '<', '>', '('] := by
      simp [and_assoc]
    rw [isRedirectTarget, Bool.and_eq_true, hfirst, hfeed]
    constructor
    · exact fun h => ⟨c, cs, rfl, h⟩
    · rintro ⟨_, _, hcons, h⟩
      cases hcons
      exact h

/-! ## The operator -/

/-- What may stand behind an operator never starts with an angle. -/
theorem OperatorText.ne_of_head? {o r : Text} (h : OperatorText o r) :
    ∀ c ∈ r.head?, c ≠ '<' ∧ c ≠ '>' := by
  intro c hc
  obtain ⟨cs, rfl⟩ := List.head?_eq_some_iff.mp hc
  rcases h with ⟨-, mark, number, hsplit, hmark, hnumber⟩ | ⟨-, d, ds, hcons, hd, -⟩
  · have hdigit (o : RedirectOperator) (h : Text.isDecimalDigit c = true) : c ≠ o.char := by
      rintro rfl
      rw [Redirect.isDecimalDigit_char] at h
      cases h
    rcases hmark with rfl | rfl
    · rw [List.nil_append] at hsplit
      subst hsplit
      rcases hnumber with hnil | hdash | ⟨-, hdigits⟩
      · cases hnil
      · cases hdash
        decide
      · have hfirst := hdigits c List.mem_cons_self
        exact ⟨hdigit .read hfirst, hdigit .write hfirst⟩
    · cases hsplit
      decide
  · cases hcons
    simp only [List.mem_cons, not_or] at hd
    exact ⟨hd.2.1, hd.2.2.1⟩

theorem isPlainRedirection_iff {t : Text} : isPlainRedirection t = true ↔
    ∃ o r, t = o ++ r ∧ OperatorText o r := by
  constructor
  · intro h
    unfold isPlainRedirection at h
    split at h
    · rename_i rest
      rw [Bool.or_eq_true, isDuplicate_iff, isRedirectTarget_iff] at h
      exact ⟨['>', '>'], rest, rfl, h.imp (⟨by simp, ·⟩) (⟨by simp, ·⟩)⟩
    · rename_i rest _
      rw [Bool.or_eq_true, isDuplicate_iff, isRedirectTarget_iff] at h
      exact ⟨['>'], rest, rfl, h.imp (⟨by simp, ·⟩) (⟨by simp, ·⟩)⟩
    · rename_i rest
      exact ⟨['<', '<'], rest, rfl, .inl ⟨by simp, isDuplicate_iff.mp h⟩⟩
    · rename_i rest _
      rw [Bool.or_eq_true, isDuplicate_iff, isRedirectTarget_iff] at h
      exact ⟨['<'], rest, rfl, h.imp (⟨by simp, ·⟩) (⟨by simp, ·⟩)⟩
    · cases h
  · rintro ⟨o, r, rfl, h⟩
    have hrest : DuplicateText r ∨ TargetText r := h.imp And.right And.right
    rw [← isDuplicate_iff, ← isRedirectTarget_iff, ← Bool.or_eq_true] at hrest
    have hoperator (operator : RedirectOperator) :
        isPlainRedirection (operator.text ++ r) = true :=
      (Redirect.isPlainRedirection_operator operator h.ne_of_head?).trans hrest
    have ho : o ∈ [['>'], ['>', '>'], ['<'], ['<', '<']] := by
      rcases h with h | h
      · exact h.1
      · exact List.mem_append_left [['<', '<']] h.1
    simp only [List.mem_cons, List.not_mem_nil, or_false] at ho
    rcases ho with rfl | rfl | rfl | rfl
    · exact hoperator .write
    · exact hoperator .append
    · exact hoperator .read
    · -- The operator of a here-document has no target behind it.
      refine isDuplicate_iff.mpr ?_
      rcases h with h | h
      · exact h.2
      · exact absurd h.1 (by decide)

/-! ## The whole -/

/-- A word has the shape of a redirection exactly if it is a descriptor, an operator and what may
stand behind that operator: after `>`, `>>`, `<` and `<<` an optional `&` and nothing, `-` or
digits, or after `>`, `>>` and `<` a target. -/
theorem isRedirection_iff_grammar (v : Text) : isRedirection v = true ↔
    ∃ p o r, v = p ++ o ++ r ∧ DescriptorText p ∧
      (o ∈ [['>'], ['>', '>'], ['<'], ['<', '<']] ∧ DuplicateText r ∨
        o ∈ [['>'], ['>', '>'], ['<']] ∧ TargetText r) := by
  constructor
  · intro h
    unfold isRedirection at h
    split at h
    · obtain ⟨o, r, rfl, hor⟩ := isPlainRedirection_iff.mp h
      exact ⟨['&'], o, r, rfl, .inl rfl, hor⟩
    · obtain ⟨o, r, hdrop, hor⟩ := isPlainRedirection_iff.mp h
      refine ⟨v.takeWhile Text.isDecimalDigit, o, r, ?_, .inr fun c hc => ?_, hor⟩
      · rw [List.append_assoc, ← hdrop, List.takeWhile_append_dropWhile]
      · exact List.all_eq_true.mp List.all_takeWhile c hc
  · rintro ⟨p, o, r, rfl, hp, hor⟩
    have hplain : isPlainRedirection (o ++ r) = true :=
      isPlainRedirection_iff.mpr ⟨o, r, rfl, hor⟩
    rw [List.append_assoc]
    rcases hp with rfl | hdigits
    · exact hplain
    · obtain ⟨operator, rest, hfirst⟩ :
          ∃ (operator : RedirectOperator) (rest : Text), o ++ r = operator.char :: rest := by
        unfold isPlainRedirection at hplain
        split at hplain
        · exact ⟨.write, _, ‹_›⟩
        · exact ⟨.write, _, ‹_›⟩
        · exact ⟨.read, _, ‹_›⟩
        · exact ⟨.read, _, ‹_›⟩
        · cases hplain
      rw [hfirst] at hplain ⊢
      rwa [Redirect.isRedirection_digits hdigits]

end CrossShell
