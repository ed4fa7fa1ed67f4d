import CrossShell.Text
import Mathlib.Data.List.Basic

/-!
# Texts with holes

A text may have holes that are filled later: the groups of a match, the values of variables.

* `Part`: a character or a hole. `fillParts` fills the holes.
* `eq_of_fillParts`: parts that give the same text however their holes are filled are the same.
-/

namespace CrossShell

/-- A part of a text with holes that are named by `κ`. -/
inductive Part (κ : Type) where
  /-- A character. -/
  | char (c : Char)
  /-- A hole. -/
  | hole (k : κ)
  deriving DecidableEq, Repr

variable {κ : Type}

/-- The text of a part. -/
def Part.text (fill : κ → Text) : Part κ → Text
  | char c => [c]
  | hole k => fill k

/-- The text of some parts. -/
def fillParts (fill : κ → Text) (parts : List (Part κ)) : Text := parts.flatMap (·.text fill)

@[simp] theorem fillParts_nil (fill : κ → Text) : fillParts fill [] = [] := rfl

@[simp] theorem fillParts_cons (fill : κ → Text) (p : Part κ) (ps : List (Part κ)) :
    fillParts fill (p :: ps) = p.text fill ++ fillParts fill ps :=
  List.flatMap_cons

theorem exists_ne_char (c : Char) : ∃ d, d ≠ c := by
  by_cases h : c = 'x'
  · exact ⟨'y', by rw [h]; decide⟩
  · exact ⟨'x', Ne.symm h⟩

/-- Two parts are the same if for every filling some texts start with both: different ones are told
apart by holes that are filled with different characters. -/
theorem Part.eq_of_text {p q : Part κ}
    (h : ∀ fill, ∃ s t, p.text fill ++ s = q.text fill ++ t) : p = q := by
  classical
  cases p with
  | char c =>
    cases q with
    | char d =>
      obtain ⟨s, t, heq⟩ := h fun _ => []
      exact congrArg _ (List.cons.inj heq).1
    | hole k =>
      obtain ⟨d, hd⟩ := exists_ne_char c
      obtain ⟨s, t, heq⟩ := h fun _ => [d]
      exact absurd (List.cons.inj heq).1.symm hd
  | hole j =>
    cases q with
    | char c =>
      obtain ⟨d, hd⟩ := exists_ne_char c
      obtain ⟨s, t, heq⟩ := h fun _ => [d]
      exact absurd (List.cons.inj heq).1 hd
    | hole k =>
      obtain ⟨s, t, heq⟩ := h fun i => if i = j then ['x'] else ['y']
      by_contra hne
      have hkj : k ≠ j := fun hkj => hne (by rw [hkj])
      simp [text, hkj] at heq

/-- Parts that have the same text for every filling are the same. -/
theorem eq_of_fillParts {ps qs : List (Part κ)}
    (h : ∀ fill, fillParts fill ps = fillParts fill qs) : ps = qs := by
  induction ps generalizing qs with
  | nil =>
    cases qs with
    | nil => rfl
    | cons q qs => cases q <;> simpa [Part.text] using h fun _ => ['x']
  | cons p ps ih =>
    cases qs with
    | nil => cases p <;> simpa [Part.text] using h fun _ => ['x']
    | cons q qs =>
      obtain rfl : p = q := Part.eq_of_text fun fill =>
        ⟨_, _, by rw [← fillParts_cons, ← fillParts_cons, h fill]⟩
      refine congrArg _ (ih fun fill => ?_)
      have hfill := h fill
      rw [fillParts_cons, fillParts_cons] at hfill
      exact List.append_cancel_left hfill

end CrossShell
