import CrossShell.Text.Quoted

/-!
# Literals in a PowerShell text

Between single quotes every character stands for itself, and a quote is written twice. So a
character that separates two pieces can be told from one that is quoted.

* `outside`: the characters outside of the literals of a text.
* `Sealed`: a text that closes its literals and has a given character only inside of them.
* `sealed_singleQuoted`: literals are sealed, whatever they hold.
-/

namespace CrossShell.Text

theorem replace_singleton (c : Char) (new t : Text) :
    replace [c] new t = t.flatMap fun d => if d = c then new else [d] := by
  unfold replace
  induction t with
  | nil => rfl
  | cons d t ih =>
    by_cases hd : d = c
    · subst hd
      simp [replaceFrom, ih]
    · have hc : ¬c = d := fun h => hd h.symm
      simp [replaceFrom, ih, hd, hc]

/-- The text with each `q` written twice. -/
def double (q : Char) (t : Text) : Text := t.flatMap fun c => if c = q then [q, q] else [c]

theorem replace_eq_double (q : Char) (t : Text) : replace [q] [q, q] t = double q t :=
  replace_singleton q [q, q] t

theorem double_cons (q c : Char) (t : Text) :
    double q (c :: t) = (if c = q then [q, q] else [c]) ++ double q t :=
  List.flatMap_cons

theorem double_injective (q : Char) : Function.Injective (double q) := by
  intro s t h
  induction s generalizing t with
  | nil =>
    cases t with
    | nil => rfl
    | cons c t => rw [double_cons] at h; split at h <;> cases h
  | cons d s ih =>
    cases t with
    | nil => rw [double_cons] at h; split at h <;> cases h
    | cons c t =>
      rw [double_cons, double_cons] at h
      by_cases hd : d = q <;> by_cases hc : c = q
      · simp only [hd, hc, if_true, List.append_cancel_left_eq] at h
        rw [hd, hc, ih h]
      · simp [hd, hc, Ne.symm hc] at h
      · simp [hd, hc] at h
      · simp only [hd, hc, if_false, List.cons_append, List.nil_append, List.cons.injEq] at h
        rw [h.1, ih h.2]

theorem singleQuoted_eq_double (t : Text) :
    singleQuoted t = '\'' :: (double '\'' t ++ ['\'']) := by
  rw [← replace_eq_double]
  rfl

theorem singleQuoted_injective : Function.Injective singleQuoted := by
  intro s t h
  rw [singleQuoted_eq_double, singleQuoted_eq_double] at h
  exact double_injective _ (List.append_cancel_right (List.cons.inj h).2)

/-! ## Outside of literals -/

/-- The characters outside of the literals of a text that starts inside of one or not. -/
def outside : (inside : Bool) → Text → Text
  | _, [] => []
  | inside, c :: cs =>
    if c = '\'' then outside (!inside) cs
    else if inside then outside inside cs
    else c :: outside inside cs

/-- Whether a text ends inside of a literal. -/
def endsInside : (inside : Bool) → Text → Bool
  | inside, [] => inside
  | inside, c :: cs => endsInside (if c = '\'' then !inside else inside) cs

theorem endsInside_append (inside : Bool) (s t : Text) :
    endsInside inside (s ++ t) = endsInside (endsInside inside s) t := by
  induction s generalizing inside with
  | nil => rfl
  | cons c s ih => exact ih _

theorem outside_append (inside : Bool) (s t : Text) :
    outside inside (s ++ t) = outside inside s ++ outside (endsInside inside s) t := by
  induction s generalizing inside with
  | nil => rfl
  | cons c s ih =>
    rw [List.cons_append, outside, outside, endsInside]
    split
    · exact ih _
    · split
      · exact ih _
      · rw [ih, List.cons_append]

/-- Between the quotes of a literal, each pair of quotes leaves it and enters it again. -/
theorem outside_double (t : Text) :
    outside true (double '\'' t) = [] ∧ endsInside true (double '\'' t) = true := by
  induction t with
  | nil => exact ⟨rfl, rfl⟩
  | cons c t ih =>
    rw [double_cons]
    split
    · exact ih
    · rename_i hc
      simpa [outside, endsInside, hc] using ih

/-- The text closes its literals, and `c` stands only inside of them. -/
def Sealed (c : Char) (t : Text) : Prop := c ∉ outside false t ∧ endsInside false t = false

instance (c : Char) (t : Text) : Decidable (Sealed c t) := inferInstanceAs (Decidable (_ ∧ _))

variable {c : Char}

theorem Sealed.append {s t : Text} (hs : Sealed c s) (ht : Sealed c t) : Sealed c (s ++ t) := by
  unfold Sealed
  rw [outside_append, endsInside_append, hs.2, List.mem_append, not_or]
  exact ⟨⟨hs.1, ht.1⟩, ht.2⟩

theorem sealed_singleQuoted (c : Char) (t : Text) : Sealed c (singleQuoted t) := by
  obtain ⟨houtside, hends⟩ := outside_double t
  unfold Sealed
  rw [singleQuoted_eq_double]
  simp [outside, endsInside, outside_append, endsInside_append, houtside, hends]

/-- A text without quotes is sealed against the characters that it does not have. -/
theorem sealed_of_notMem {t : Text} (hquote : '\'' ∉ t) (hc : c ∉ t) : Sealed c t := by
  induction t with
  | nil => simp [Sealed, outside, endsInside]
  | cons d t ih =>
    simp only [List.mem_cons, not_or] at hquote hc
    have hne : d ≠ '\'' := fun h => hquote.1 h.symm
    have hrest := ih hquote.2 hc.2
    unfold Sealed at hrest ⊢
    simpa [outside, endsInside, hne, hc.1] using hrest

/-- The digits of a number. -/
theorem sealed_ofNat (hc : c.isDigit = false) (n : Nat) : Sealed c (ofNat n) := by
  have hdigit : ∀ d ∈ ofNat n, d.isDigit = true :=
    fun d hd => Nat.isDigit_of_mem_toDigits (by decide) (by decide) hd
  refine sealed_of_notMem (fun hmem => ?_) fun hmem => ?_
  · exact absurd (hdigit _ hmem) (by decide)
  · rw [hdigit c hmem] at hc
    cases hc

/-- A list of sealed items with a separator is sealed only if it has at most one item. -/
theorem length_le_one_of_sealed_join {sep : Text} (hsep : c ∈ outside false sep) {items : List Text}
    (hitems : ∀ t ∈ items, Sealed c t) (h : Sealed c (join sep items)) : items.length ≤ 1 := by
  match items with
  | [] => simp
  | [t] => simp
  | t :: u :: ts =>
    have ht := hitems t List.mem_cons_self
    have hmem : c ∈ outside false (join sep (t :: u :: ts)) := by
      rw [join, List.append_assoc, outside_append, outside_append, ht.2]
      exact List.mem_append_right _ (List.mem_append_left _ hsep)
    exact absurd hmem h.1

end CrossShell.Text
