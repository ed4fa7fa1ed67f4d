import CrossShell.Text.Blank

/-!
# What trimming removes

* `exists_eq_trim`: a text is its trimmed form with blanks around it.
* `trim_of_trimmed`: blanks around a text without blanks at its ends are all that trimming removes.
* `trim_blank_append_blank`: blanks around a text do not matter.
* `trim_append_append`: trimming a text with something at both ends trims the outer sides only.
-/

namespace CrossShell.Text

-- What holds of all or some characters of a text is decided along the text, not over all
-- characters.
instance (priority := high) (p : Char → Prop) [DecidablePred p] (t : List Char) :
    Decidable (∀ c ∈ t, p c) :=
  List.decidableBAll p t

instance (priority := high) (p : Char → Prop) [DecidablePred p] (o : Option Char) :
    Decidable (∀ c ∈ o, p c) :=
  Option.decidableForallMem o

instance (priority := high) (p : Char → Prop) [DecidablePred p] (o : Option Char) :
    Decidable (∃ c ∈ o, p c) :=
  Option.decidableExistsMem o

/-- Only white space. -/
def Blank (t : Text) : Prop := ∀ c ∈ t, isBlank c = true

/-- No blank stands at either end. -/
structure Trimmed (t : Text) : Prop where
  front : ∀ c ∈ t.head?, isBlank c = false
  back : ∀ c ∈ t.getLast?, isBlank c = false

theorem blank_nil : Blank [] := by simp [Blank]

theorem blank_space : Blank [' '] := by
  intro c hc
  rw [List.mem_singleton.mp hc]
  rfl

theorem Blank.append {s t : Text} (hs : Blank s) (ht : Blank t) : Blank (s ++ t) := by
  intro c hc
  rcases List.mem_append.mp hc with hc | hc
  · exact hs c hc
  · exact ht c hc

theorem Blank.reverse {t : Text} (h : Blank t) : Blank t.reverse := by
  intro c hc
  exact h c (List.mem_reverse.mp hc)

theorem exists_eq_trimFront (t : Text) :
    ∃ pre, Blank pre ∧ t = pre ++ trimFront t ∧ ∀ c ∈ (trimFront t).head?, isBlank c = false := by
  induction t with
  | nil => exact ⟨[], blank_nil, rfl, by simp [trimFront]⟩
  | cons c t ih =>
    by_cases hc : isBlank c = true
    · obtain ⟨pre, hpre, ht, hfront⟩ := ih
      have hcons : trimFront (c :: t) = trimFront t := by simp [trimFront, hc]
      refine ⟨c :: pre, ?_, ?_, hcons ▸ hfront⟩
      · simpa [Blank, hc] using hpre
      · rw [hcons, List.cons_append, ← ht]
    · have hcons : trimFront (c :: t) = c :: t := by simp [trimFront, hc]
      refine ⟨[], blank_nil, by rw [hcons]; rfl, ?_⟩
      rw [hcons]
      simpa using hc

theorem trimBack_eq (t : Text) : trimBack t = (trimFront t.reverse).reverse := rfl

theorem exists_eq_trimBack (t : Text) :
    ∃ post, Blank post ∧ t = trimBack t ++ post ∧
      ∀ c ∈ (trimBack t).getLast?, isBlank c = false := by
  obtain ⟨pre, hpre, ht, hfront⟩ := exists_eq_trimFront t.reverse
  refine ⟨pre.reverse, hpre.reverse, ?_, ?_⟩
  · rw [trimBack_eq, ← List.reverse_append, ← ht, List.reverse_reverse]
  · rw [trimBack_eq, List.getLast?_reverse]
    exact hfront

/-- A text is its trimmed form with blanks around it. -/
theorem exists_eq_trim (t : Text) :
    ∃ pre post, Blank pre ∧ Blank post ∧ t = pre ++ trim t ++ post ∧ Trimmed (trim t) := by
  obtain ⟨pre, hpre, ht, hfront⟩ := exists_eq_trimFront t
  obtain ⟨post, hpost, ht', hback⟩ := exists_eq_trimBack (trimFront t)
  refine ⟨pre, post, hpre, hpost, ?_, ?_, hback⟩
  · rw [trim, List.append_assoc, ← ht', ← ht]
  · intro c hc
    rw [ht'] at hfront
    cases hb : trimBack (trimFront t) with
    | nil => rw [trim, hb] at hc; simp at hc
    | cons d s =>
      rw [trim, hb] at hc
      rw [hb] at hfront
      exact hfront c hc

theorem trimFront_blank_append {pre : Text} (h : Blank pre) (t : Text) :
    trimFront (pre ++ t) = trimFront t := by
  rw [trimFront, trimFront, List.dropWhile_append_of_pos h]

theorem trimFront_of_head {t : Text} (h : ∀ c ∈ t.head?, isBlank c = false) : trimFront t = t := by
  cases t with
  | nil => rfl
  | cons c t => simp [trimFront, h c rfl]

theorem trimBack_append_blank {post : Text} (h : Blank post) (t : Text) :
    trimBack (t ++ post) = trimBack t := by
  rw [trimBack_eq, List.reverse_append, trimFront_blank_append h.reverse, trimBack_eq]

theorem trimBack_of_getLast {t : Text} (h : ∀ c ∈ t.getLast?, isBlank c = false) :
    trimBack t = t := by
  rw [trimBack_eq, trimFront_of_head (by rwa [List.head?_reverse]), List.reverse_reverse]

/-- Blanks around a text without blanks at its ends are all that trimming removes. -/
theorem trim_of_trimmed {pre s post : Text} (hpre : Blank pre) (hs : Trimmed s)
    (hpost : Blank post) : trim (pre ++ s ++ post) = s := by
  rw [trim, List.append_assoc, trimFront_blank_append hpre]
  cases s with
  | nil =>
    obtain ⟨pre', -, ht, hfront⟩ := exists_eq_trimFront post
    have hnil : trimFront post = [] := by
      cases hp : trimFront post with
      | nil => rfl
      | cons c u =>
        have hblank := hpost c (by rw [ht, hp]; simp)
        rw [hp] at hfront
        rw [hfront c rfl] at hblank
        cases hblank
    rw [List.nil_append, hnil]
    rfl
  | cons c s =>
    rw [trimFront_of_head (by simpa using hs.front), trimBack_append_blank hpost,
      trimBack_of_getLast hs.back]

/-- Blanks around a text do not matter to trimming. -/
theorem trim_blank_append_blank {pre post : Text} (hpre : Blank pre) (hpost : Blank post)
    (t : Text) : trim (pre ++ t ++ post) = trim t := by
  obtain ⟨p, q, hp, hq, ht, htrimmed⟩ := exists_eq_trim t
  have hsplit : pre ++ t ++ post = pre ++ p ++ trim t ++ (q ++ post) := by
    conv => lhs; rw [ht]
    simp only [List.append_assoc]
  rw [hsplit, trim_of_trimmed (hpre.append hp) htrimmed (hq.append hpost)]

/-- With something at both ends that is not blank, trimming works on the outer sides only. -/
theorem trim_append_append {a b : Text} (ha : trim a ≠ []) (hb : trim b ≠ []) (x : Text) :
    ∃ post pre, Blank post ∧ Blank pre ∧
      trim (a ++ x ++ b) = trim a ++ post ++ x ++ (pre ++ trim b) := by
  obtain ⟨p, q, hp, hq, hta, hfa⟩ := exists_eq_trim a
  obtain ⟨p', q', hp', hq', htb, hfb⟩ := exists_eq_trim b
  refine ⟨q, p', hq, hp', ?_⟩
  have hsplit : a ++ x ++ b = p ++ (trim a ++ q ++ x ++ (p' ++ trim b)) ++ q' := by
    conv => lhs; rw [hta, htb]
    simp only [List.append_assoc]
  rw [hsplit]
  refine trim_of_trimmed hp ⟨?_, ?_⟩ hq'
  · intro c hc
    refine hfa.front c ?_
    simpa [ha] using hc
  · intro c hc
    refine hfb.back c ?_
    simpa [List.getLast?_append, hb] using hc

end CrossShell.Text
