import CrossShell.Lint
import Mathlib.Data.Char
import Mathlib.Data.List.Lex

/-!
# Which commands are known

The names of all commands are sorted, repeats are dropped, and a name is looked for by halving what
is left. It is found if and only if the command has a mapping or a rule of its own.

* `Text.before_iff_lt`: the order of texts is a linear one.
* `mem_inNameOrder`, `pairwise_inNameOrder`: the sorted names are the same, and each stands once.
* `bisect_iff`: halving finds exactly what is there.
* `Linter.isKnown_iff`: the commands that are known.
-/

namespace CrossShell

/-! ## The order of texts -/

theorem Text.before_iff_lt {s t : Text} : Text.before s t = true ↔ s < t := by
  induction s generalizing t with
  | nil => cases t <;> simp [Text.before]
  | cons a s ih =>
    cases t with
    | nil => simp [Text.before]
    | cons b t =>
      rw [Text.before, List.cons_lt_cons_iff]
      by_cases hab : a = b
      · subst hab
        simp [ih]
      · simp only [hab, if_false, false_and, or_false, decide_eq_true_eq]
        exact Iff.rfl

/-! ## Sorted names -/

theorem mem_dropRepeats {t : Text} {ts : List Text} : t ∈ dropRepeats ts ↔ t ∈ ts := by
  fun_induction dropRepeats ts with
  | case1 => rfl
  | case2 => rfl
  | case3 u ts ih => simp [ih]
  | case4 s u ts hne ih => rw [List.mem_cons, ih, List.mem_cons (l := u :: ts)]

/-- Texts that are sorted by a key stand in strict order once repeats are dropped, since only equal
texts have equal keys. -/
theorem pairwise_dropRepeats {α : Type*} [PartialOrder α] {key : Text → α}
    (hkey : Function.Injective key) {ts : List Text}
    (h : ts.Pairwise fun a b => key a ≤ key b) :
    (dropRepeats ts).Pairwise fun a b => key a < key b := by
  fun_induction dropRepeats ts with
  | case1 => exact .nil
  | case2 t => exact List.pairwise_singleton _ _
  | case3 t ts ih => exact ih h.of_cons
  | case4 s t ts hne ih =>
    refine List.pairwise_cons.mpr ⟨fun u hu => ?_, ih h.of_cons⟩
    have hst : key s < key t :=
      lt_of_le_of_ne (List.rel_of_pairwise_cons h List.mem_cons_self) (hkey.ne hne)
    rcases List.mem_cons.mp (mem_dropRepeats.mp hu) with rfl | hu
    · exact hst
    · exact hst.trans_le (List.rel_of_pairwise_cons h.of_cons hu)

theorem mem_inNameOrder {t : Text} {ts : List Text} : t ∈ inNameOrder ts ↔ t ∈ ts := by
  rw [inNameOrder, mem_dropRepeats, List.mem_mergeSort]

theorem not_before_iff_le {s t : Text} : (!Text.before t s) = true ↔ s ≤ t := by
  rw [Bool.not_eq_true', ← Bool.not_eq_true, Text.before_iff_lt, not_lt]

/-- The names stand in order, each once. -/
theorem pairwise_inNameOrder (ts : List Text) : (inNameOrder ts).Pairwise (· < ·) := by
  refine pairwise_dropRepeats Function.injective_id ?_
  refine (List.pairwise_mergeSort (fun a b c hab hbc => ?_) (fun a b => ?_) ts).imp
    not_before_iff_le.mp
  · exact not_before_iff_le.mpr ((not_before_iff_le.mp hab).trans (not_before_iff_le.mp hbc))
  · rw [Bool.or_eq_true, not_before_iff_le, not_before_iff_le]
    exact le_total a b

/-! ## Halving -/

theorem mem_of_bisect {sorted : Array Text} {text : Text} {base size : Nat}
    (h : bisect sorted text base size = true) : text ∈ sorted := by
  fun_induction bisect sorted text base size with
  | case1 base size hsize => exact Array.mem_of_getElem? (beq_iff_eq.mp h)
  | case2 base size hsize middle hbefore ih => exact ih h
  | case3 base size hsize middle hbefore ih => exact ih h

/-- What stands in the window is found: halving never leaves its place behind. -/
theorem bisect_of_getElem? {sorted : Array Text} {text : Text} {base size i : Nat}
    (hsorted : sorted.toList.Pairwise (· < ·)) (hi : sorted[i]? = some text) (hle : base ≤ i)
    (hlt : i < base + size) (hend : base + size ≤ sorted.size) :
    bisect sorted text base size = true := by
  have hmono : ∀ (j k : Nat) (u v : Text), j < k → sorted[j]? = some u → sorted[k]? = some v →
      u < v := by
    intro j k u v hjk hu hv
    obtain ⟨hj, rfl⟩ := Array.getElem?_eq_some_iff.mp hu
    obtain ⟨hk, rfl⟩ := Array.getElem?_eq_some_iff.mp hv
    exact List.pairwise_iff_getElem.mp hsorted j k hj hk hjk
  fun_induction bisect sorted text base size with
  | case1 base size hsize =>
    obtain rfl : i = base := by omega
    rw [hi, beq_self_eq_true]
  | case2 base size hsize middle hbefore ih =>
    have hmiddle : middle < sorted.size := by omega
    rw [Array.getElem?_eq_getElem hmiddle, Option.any_some, Text.before_iff_lt] at hbefore
    have hleft : i < middle := by
      rcases Nat.lt_trichotomy i middle with hlt | rfl | hgt
      · exact hlt
      · rw [Array.getElem?_eq_getElem hmiddle] at hi
        exact absurd hbefore (Option.some.inj hi ▸ lt_irrefl _)
      · exact absurd hbefore
          (hmono middle i _ text hgt (Array.getElem?_eq_getElem hmiddle) hi).asymm
    exact ih hle (by omega) (by omega)
  | case3 base size hsize middle hbefore ih =>
    have hmiddle : middle < sorted.size := by omega
    rw [Array.getElem?_eq_getElem hmiddle, Option.any_some, Text.before_iff_lt] at hbefore
    have hright : middle ≤ i := by
      by_contra hlt
      exact hbefore (hmono i middle text _ (by omega) hi (Array.getElem?_eq_getElem hmiddle))
    exact ih hright (by omega) (by omega)

theorem bisect_iff {ts : List Text} (h : ts.Pairwise (· < ·)) {text : Text} :
    bisect ts.toArray text 0 ts.toArray.size = true ↔ text ∈ ts := by
  constructor
  · intro hfound
    simpa using mem_of_bisect hfound
  · intro hmem
    obtain ⟨i, hi⟩ := List.mem_iff_getElem?.mp hmem
    have hlt := (List.getElem?_eq_some_iff.mp hi).1
    exact bisect_of_getElem? h (by simpa using hi) (Nat.zero_le i) (by simpa using hlt) (by simp)

/-! ## Known commands -/

theorem Special.ofName?_isSome {name : Text} :
    (Special.ofName? name).isSome = true ↔ name ∈ Special.all.map (·.name) := by
  simp [Special.ofName?, List.find?_isSome]

/-- The known commands are those with a mapping and those with a rule of their own. -/
theorem Linter.isKnown_iff (l : Linter) {name : Text} : l.isKnown name = true ↔
    name ∈ l.rules.names ∨ (Special.ofName? name).isSome = true := by
  rw [isKnown, knownCommands, bisect_iff (pairwise_inNameOrder _), mem_inNameOrder,
    List.mem_append, Special.ofName?_isSome]

end CrossShell
