import CrossShell.Stage

/-!
# What is put around a converted command

A converted command is finished by putting its redirections around it. What is put there does not
depend on the command, and the command can be read off the finished line.

* `appendWord_assoc`, `joinWords_cons`: words are put together one seam at a time.
* `Invocation.finish_eq`, `Invocation.finish_injective`: finishing, and that it hides nothing.
* `StageConverter.counterpart?_of_changed`: a stage of a special command that is changed becomes
  what the rule of the command makes of it.
-/

namespace CrossShell

/-! ## Words put together -/

/-- What stands between two words: a space, or nothing between `$` and the group it opens. -/
def seam (line word : Text) : Text :=
  if line.getLast? == some '$' && (word.head? == some '(' || word.head? == some '{') then []
  else [' ']

@[simp] theorem appendWord_nil (line : Text) : appendWord line [] = line := rfl

@[simp] theorem nil_appendWord (word : Text) : appendWord [] word = word := by
  cases word <;> rfl

theorem appendWord_eq {line word : Text} (hline : line ≠ []) (hword : word ≠ []) :
    appendWord line word = line ++ (seam line word ++ word) := by
  unfold appendWord seam
  rw [if_neg (by simpa using hword), if_neg (by simpa using hline)]
  split <;> simp

theorem seam_cases (line word : Text) :
    seam line word = [' '] ∨ seam line word = [] ∧ line.getLast? = some '$' := by
  unfold seam
  split <;> simp_all

theorem appendWord_assoc (a b c : Text) :
    appendWord (appendWord a b) c = appendWord a (appendWord b c) := by
  by_cases ha : a = []
  · simp [ha]
  by_cases hb : b = []
  · simp [hb]
  by_cases hc : c = []
  · simp [hc]
  -- The second seam sees only the end of `b`, the first only its front.
  have hlast : (a ++ (seam a b ++ b)).getLast? = b.getLast? := by
    rw [← List.append_assoc, List.getLast?_append, List.getLast?_eq_some_getLast hb]
    rfl
  have hhead : (b ++ (seam b c ++ c)).head? = b.head? := by
    rw [List.head?_append, List.head?_eq_some_head hb]
    rfl
  have hab : a ++ (seam a b ++ b) ≠ [] := by simp [ha]
  have hbc : b ++ (seam b c ++ c) ≠ [] := by simp [hb]
  rw [appendWord_eq ha hb, appendWord_eq hb hc, appendWord_eq hab hc, appendWord_eq ha hbc]
  have hfirst : seam a (b ++ (seam b c ++ c)) = seam a b := by rw [seam, hhead, ← seam]
  have hsecond : seam (a ++ (seam a b ++ b)) c = seam b c := by rw [seam, hlast, ← seam]
  rw [hfirst, hsecond]
  simp only [List.append_assoc]

theorem foldl_appendWord (line : Text) (words : List Text) :
    words.foldl appendWord line = appendWord line (joinWords words) := by
  induction words generalizing line with
  | nil => rfl
  | cons word words ih =>
    have hjoin : joinWords (word :: words) = appendWord word (joinWords words) := by
      rw [joinWords, List.foldl_cons, nil_appendWord, ih]
    rw [List.foldl_cons, ih, hjoin, appendWord_assoc]

theorem joinWords_cons (word : Text) (words : List Text) :
    joinWords (word :: words) = appendWord word (joinWords words) := by
  rw [joinWords, List.foldl_cons, nil_appendWord, foldl_appendWord]

theorem joinWords_append (ts us : List Text) :
    joinWords (ts ++ us) = appendWord (joinWords ts) (joinWords us) := by
  rw [joinWords, List.foldl_append, foldl_appendWord]
  rfl

/-- What stands in front of a line does not matter to what is appended to it. -/
theorem appendWord_append {line : Text} (h : line ≠ []) (front word : Text) :
    appendWord (front ++ line) word = front ++ appendWord line word := by
  by_cases hword : word = []
  · simp [hword]
  have hlast : (front ++ line).getLast? = line.getLast? := by
    rw [List.getLast?_append, List.getLast?_eq_some_getLast h]
    rfl
  have hseam : seam (front ++ line) word = seam line word := by rw [seam, hlast, ← seam]
  rw [appendWord_eq (by simp [h]) hword, appendWord_eq h hword, hseam, List.append_assoc]

theorem appendWord_ne_nil {line : Text} (h : line ≠ []) (word : Text) :
    appendWord line word ≠ [] := by
  by_cases hword : word = []
  · simpa [hword] using h
  · rw [appendWord_eq h hword]
    simp [h]

theorem length_lt_appendWord {line word : Text} (hline : line ≠ []) (hword : word ≠ []) :
    word.length < (appendWord line word).length := by
  have := List.length_pos_iff.mpr hline
  rw [appendWord_eq hline hword, List.length_append, List.length_append]
  omega

/-- What stands in front of a word can be read off: a line that ends in a space has no `$` there. -/
theorem appendWord_left_injective (word : Text) :
    Function.Injective fun line => appendWord line word := by
  intro a b (h : appendWord a word = appendWord b word)
  by_cases hword : word = []
  · simpa [hword] using h
  by_cases ha : a = []
  · by_cases hb : b = []
    · rw [ha, hb]
    · rw [ha, nil_appendWord] at h
      exact absurd (congrArg List.length h) (Nat.ne_of_lt (length_lt_appendWord hb hword))
  by_cases hb : b = []
  · rw [hb, nil_appendWord] at h
    exact absurd (congrArg List.length h) (Nat.ne_of_gt (length_lt_appendWord ha hword))
  rw [appendWord_eq ha hword, appendWord_eq hb hword, ← List.append_assoc, ← List.append_assoc,
    List.append_left_inj] at h
  rcases seam_cases a word with hspace | ⟨hnone, hdollar⟩ <;>
    rcases seam_cases b word with hspace' | ⟨hnone', hdollar'⟩
  · rw [hspace, hspace'] at h
    exact List.append_cancel_right h
  · rw [hspace, hnone', List.append_nil] at h
    simp [← h] at hdollar'
  · rw [hnone, hspace', List.append_nil] at h
    simp [h] at hdollar
  · simpa [hnone, hnone'] using h

namespace Invocation

/-- Words have a text unless there are none of them. -/
theorem textOf?_of_ne_nil (inv : Invocation) {words : List TaggedToken} (h : words ≠ []) :
    inv.textOf? words =
      some (Text.slice (words.head h).token.start (words.getLast h).token.stop inv.stage) := by
  unfold textOf?
  rw [List.head?_eq_some_head h, List.getLast?_eq_some_getLast h]

/-- What is put in front of a command that reads from a file. -/
def sourceText : Option Text → Text
  | some source => "Get-Content " ++ source ++ " | "
  | none => []

/-- The input goes in front of a command, the redirections of its output behind it. -/
theorem finish_eq (inv : Invocation) (body : Text) : inv.finish body =
    sourceText (inputAndOutputs none inv.redirects).1 ++
      appendWord body (joinWords (inputAndOutputs none inv.redirects).2) := by
  rw [← joinWords_cons]
  unfold finish
  cases inv.redirects with
  | nil => exact (nil_appendWord body).symm
  | cons r rs =>
    rw [List.isEmpty_cons, if_neg Bool.false_ne_true]
    rcases inputAndOutputs none (r :: rs) with ⟨_ | source, outputs⟩ <;> rfl

/-- A command can be read off its finished line. -/
theorem finish_injective (inv : Invocation) : Function.Injective inv.finish := by
  intro a b h
  rw [finish_eq, finish_eq, List.append_cancel_left_eq] at h
  exact appendWord_left_injective _ h

end Invocation

/-! ## Stages of special commands -/

namespace StageConverter

variable {r : StageConverter} {stage : Text} {inv : Invocation} {s : Special}

/-- A stage that is not left alone is converted as its invocation is. -/
theorem convertStage?_of_ofTagged? (hneeds : r.target.needsConversion = true)
    (hgroup : isGrouped stage = false) (hheredoc : ∀ t ∈ tagStage stage, t.token.isHeredoc = false)
    (hinv : Invocation.ofTagged? stage (tagStage stage) = some inv) (nested : Nested) :
    r.convertStage? nested stage = r.convertInvocation? nested inv := by
  ext text
  rw [convertStage?_eq_some_iff]
  constructor
  · rintro ⟨-, -, -, inv', hinv', htext⟩
    obtain rfl : inv = inv' := Option.some.inj (hinv.symm.trans hinv')
    exact htext
  · exact fun htext => ⟨hneeds, hgroup, hheredoc, inv, hinv, htext⟩

/-- The rule of a special command decides, if it accepts all flags. -/
theorem convertInvocation?_of_special (hspecial : Special.ofName? inv.name = some s)
    (hflags : (s.unsupportedFlags inv).isEmpty = true) (nested : Nested) :
    r.convertInvocation? nested inv = s.counterpart? r.target nested inv := by
  unfold convertInvocation?
  simp only [hspecial, hflags, if_true]

/-- A stage that has a counterpart for some conversion of wrapped commands is converted by the rule
of its command, whatever wrapped commands become. -/
theorem convertStage?_eq_counterpart? {nested₀ : Nested}
    (hinv : Invocation.ofTagged? stage (tagStage stage) = some inv)
    (hspecial : Special.ofName? inv.name = some s)
    (h : (r.convertStage? nested₀ stage).isSome = true) (nested : Nested) :
    r.convertStage? nested stage = s.counterpart? r.target nested inv := by
  obtain ⟨text, htext⟩ := Option.isSome_iff_exists.mp h
  obtain ⟨hneeds, hgroup, hheredoc, inv', hinv', hconvert⟩ := convertStage?_eq_some_iff.mp htext
  obtain rfl : inv = inv' := Option.some.inj (hinv.symm.trans hinv')
  have hflags : (s.unsupportedFlags inv).isEmpty = true := by
    unfold convertInvocation? at hconvert
    simp only [hspecial] at hconvert
    split at hconvert
    · assumption
    · cases hconvert
  rw [convertStage?_of_ofTagged? hneeds hgroup hheredoc hinv,
    convertInvocation?_of_special hspecial hflags]

theorem isSome_of_changed {depth : Nat} (h : r.convertStageAt depth stage ≠ stage) :
    (r.convertStage? (r.nestedAt depth) stage).isSome = true := by
  rw [convertStageAt_eq] at h
  cases hconvert : r.convertStage? (r.nestedAt depth) stage with
  | none => rw [hconvert] at h; exact absurd rfl h
  | some text => rfl

/-- A stage of a special command that is changed becomes what its rule makes of it. -/
theorem counterpart?_of_changed {depth : Nat}
    (hinv : Invocation.ofTagged? stage (tagStage stage) = some inv)
    (hspecial : Special.ofName? inv.name = some s) (h : r.convertStageAt depth stage ≠ stage) :
    s.counterpart? r.target (r.nestedAt depth) inv = some (r.convertStageAt depth stage) := by
  have hsome := isSome_of_changed h
  rw [← convertStage?_eq_counterpart? hinv hspecial hsome, convertStageAt_eq]
  obtain ⟨text, htext⟩ := Option.isSome_iff_exists.mp hsome
  rw [htext]
  rfl

end StageConverter

end CrossShell
