import CrossShell.Text
import CrossShell.Text.Letter

/-!
# Quoted words

* `singleQuoted`: a text as a PowerShell literal. Between single quotes only the quote itself needs
  writing out, as two.
* `unquote`: the text that a quoted shell word stands for.
* `withoutQuotes`: a shell word without quotes it does not need.
-/
namespace CrossShell.Text

/-- A text as a single-quoted PowerShell literal. -/
def singleQuoted (t : Text) : Text := "'" ++ replace "'" "''" t ++ "'"

/-- The characters between the first and the last one. -/
def inner (t : Text) : Text := t.tail.dropLast

/-- Whether a text of at least two characters starts and ends with `c`. -/
def enclosedBy (c : Char) (t : Text) : Bool :=
  2 ≤ t.length && t.head? == some c && t.getLast? == some c

/-- A text is enclosed by a character if it has it in front of and behind what is between. -/
theorem enclosedBy_iff {c : Char} {t : Text} :
    enclosedBy c t = true ↔ t = c :: (inner t ++ [c]) := by
  unfold enclosedBy inner
  constructor
  · intro h
    simp only [Bool.and_eq_true, decide_eq_true_eq, beq_iff_eq] at h
    obtain ⟨⟨hlen, hhead⟩, hlast⟩ := h
    obtain ⟨t', rfl⟩ := List.head?_eq_some_iff.mp hhead
    have hne : t' ≠ [] := by
      rintro rfl
      simp at hlen
    rw [List.getLast?_cons_of_ne_nil hne] at hlast
    obtain ⟨init, rfl⟩ := List.getLast?_eq_some_iff.mp hlast
    simp
  · intro h
    have hlast : t.getLast? = some c := by
      rw [h, ← List.cons_append, List.getLast?_concat]
    rw [hlast, h]
    simp

/-- A shell word without one pair of matching quotes. Between double quotes, `\"` stands for a quote
and `\\` for a backslash. -/
def unquote (t : Text) : Text :=
  if enclosedBy '\'' t then inner t
  else if enclosedBy '"' t then replace "\\\\" "\\" (replace "\\\"" "\"" (inner t))
  else t

/-- Whether a character has no meaning to a shell and so needs no quotes. -/
def isPlain (c : Char) : Bool := isAlphanumeric c || "._-/\\:+=,@%~*?".toList.contains c

/-- A shell word without one pair of matching quotes, if nothing inside needs them. -/
def withoutQuotes (t : Text) : Text :=
  if enclosedBy '\'' t || enclosedBy '"' t then
    if !(inner t).isEmpty && (inner t).all isPlain then inner t else t
  else t

end CrossShell.Text
