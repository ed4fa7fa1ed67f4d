import CrossShell.Proofs.Token.Checked
import CrossShell.Proofs.Token.Wholeness

/-!
# Fusion only coarsens

A pass leaves a token as it is, or it makes one token of several that stand one behind the other.
Whatever passes run, in whatever order and however often, the tokens stay slices of the line that
stand in order.

* `Partitions`: tokens made of others, each of one or of a run of several.
* `partitions_coalesce`: what a pass makes is made so. `Partitions.trans`: and what passes make one
  after the other.
* `fusion_partitions`: all passes end, and their tokens partition those of the line.
-/

namespace CrossShell

variable {line : Text} {ts us vs : List Token}

/-- The second tokens are made of the first: each is one of them, or all from one to a later one. -/
inductive Partitions (line : Text) : List Token → List Token → Prop where
  | nil : Partitions line [] []
  | kept (t : Token) {ts us : List Token} : Partitions line ts us →
      Partitions line (t :: ts) (t :: us)
  | merged (first : Token) (inner : List Token) (last : Token) {value : Text} {ts us : List Token} :
      Text.slice? first.start last.stop line = some value → Partitions line ts us →
      Partitions line (first :: (inner ++ last :: ts)) (⟨value, first.start, last.stop, none⟩ :: us)

/-! ## Passes one after the other -/

namespace Partitions

theorem refl (line : Text) (ts : List Token) : Partitions line ts ts := by
  induction ts with
  | nil => exact .nil
  | cons t ts ih => exact .kept t ih

/-- What the first and the rest of the tokens are made of. -/
theorem exists_of_append (us : List Token) (h : Partitions line ts (us ++ vs)) :
    ∃ front rest, ts = front ++ rest ∧ Partitions line front us ∧ Partitions line rest vs := by
  induction us generalizing ts with
  | nil => exact ⟨[], ts, rfl, .nil, h⟩
  | cons u us ih =>
    cases h with
    | kept _ h =>
      obtain ⟨front, rest, rfl, hfront, hrest⟩ := ih h
      exact ⟨u :: front, rest, rfl, .kept u hfront, hrest⟩
    | merged first inner last hslice h =>
      obtain ⟨front, rest, rfl, hfront, hrest⟩ := ih h
      exact ⟨_, rest, by simp, .merged first inner last hslice hfront, hrest⟩

/-- What one token is made of starts and ends with it. -/
theorem ends_of_singleton {u : Token} (h : Partitions line ts [u]) :
    (∃ first rest, ts = first :: rest ∧ first.start = u.start) ∧
      ∃ rest last, ts = rest ++ [last] ∧ last.stop = u.stop := by
  cases h with
  | kept _ h =>
    cases h
    exact ⟨⟨u, [], rfl, rfl⟩, [], u, rfl, rfl⟩
  | merged first inner last _ h =>
    cases h
    exact ⟨⟨first, _, rfl, rfl⟩, first :: inner, last, rfl, rfl⟩

theorem trans (h : Partitions line ts us) (h' : Partitions line us vs) : Partitions line ts vs := by
  induction h' generalizing ts with
  | nil => exact h
  | kept t _ ih =>
    cases h with
    | kept _ h => exact .kept t (ih h)
    | merged first inner last hslice h => exact .merged first inner last hslice (ih h)
  | @merged first inner last value us vs hslice _ ih =>
    -- The first and the last token of the run may be runs themselves.
    obtain ⟨A, rest, rfl, hfirst, h⟩ := h.exists_of_append [first]
    obtain ⟨B, rest, rfl, -, h⟩ := h.exists_of_append inner
    obtain ⟨C, rest, rfl, hlast, hrest⟩ := h.exists_of_append [last]
    obtain ⟨⟨f, A, rfl, hstart⟩, -⟩ := hfirst.ends_of_singleton
    obtain ⟨-, C, l, rfl, hstop⟩ := hlast.ends_of_singleton
    rw [← hstart, ← hstop] at hslice ⊢
    simpa using merged f (A ++ B ++ C) l hslice (ih hrest)

end Partitions

/-! ## One pass -/

/-- A pass glues consecutive tokens together, and leaves the others as they are. -/
theorem partitions_coalesce {extent : Token → List Token → Nat} (horder : InOrder ts)
    (hat : ∀ t ∈ ts, t.At line) : Partitions line ts (coalesce line extent 0 ts) := by
  induction hn : ts.length using Nat.strongRecOn generalizing ts with
  | ind n ih =>
    cases ts with
    | nil => exact .nil
    | cons t ts =>
      have hrest : Partitions line (ts.drop (extent t ts))
          (coalesce line extent 0 (ts.drop (extent t ts))) := by
        have hsub := (List.drop_sublist (extent t ts) ts).trans (List.sublist_cons_self t ts)
        refine ih _ ?_ (horder.sublist hsub) (fun u hu => hat u (hsub.subset hu)) rfl
        rw [List.length_drop, ← hn, List.length_cons]
        omega
      rw [coalesce_zero_cons]
      rcases List.eq_nil_or_concat (ts.take (extent t ts)) with hnil | ⟨inner, last, htake⟩
      · have hall : ts.drop (extent t ts) = ts := by
          conv => rhs; rw [← List.take_append_drop (extent t ts) ts, hnil, List.nil_append]
        rw [hnil, hall]
        rw [hall] at hrest
        exact .kept t hrest
      · rw [List.concat_eq_append] at htake
        have hunit := (List.take_sublist (extent t ts) ts).cons_cons t
        rw [htake] at hunit ⊢
        obtain ⟨value, hslice, hglue⟩ :=
          exists_slice?_glue (horder.sublist hunit) fun u hu => hat u (hunit.subset hu)
        have hsplit : ts = inner ++ last :: ts.drop (extent t ts) := by
          conv => lhs; rw [← List.take_append_drop (extent t ts) ts, htake]
          simp
        rw [hglue]
        conv => lhs; rw [hsplit]
        exact .merged t inner last hslice hrest

/-! ## All passes -/

theorem at_of_mem_fuseWith (passes : List Fusion) (horder : InOrder ts)
    (hat : ∀ t ∈ ts, t.At line) : ∀ t ∈ fuseWith passes line ts, t.At line := by
  induction passes generalizing ts with
  | nil => exact hat
  | cons pass passes ih => exact ih (inOrder_coalesce horder) (at_of_mem_coalesce horder hat)

/-- Tokens that stand in order, each a slice of the line. -/
def Sliced (line : Text) (ts : List Token) : Prop := InOrder ts ∧ ∀ t ∈ ts, t.At line

theorem sliced_fuseWith (line : Text) (passes : List Fusion) :
    Sliced line (fuseWith passes line (tokenize line)) := by
  have horder : InOrder (tokenize line) := inOrder_tokenizeFrom 0 line
  exact ⟨inOrder_fuseWith passes horder,
    at_of_mem_fuseWith passes horder fun _ => at_of_mem_tokenize⟩

namespace Sliced

theorem apply (h : Sliced line ts) (pass : Fusion) : Sliced line (pass.apply line ts) :=
  ⟨inOrder_coalesce h.1, at_of_mem_coalesce h.1 h.2⟩

theorem sublist (h : Sliced line ts) (hsub : us.Sublist ts) : Sliced line us :=
  ⟨h.1.sublist hsub, fun t ht => h.2 t (hsub.subset ht)⟩

theorem value_ne_nil (h : Sliced line ts) {t : Token} (ht : t ∈ ts) : t.value ≠ [] := by
  obtain ⟨u, v, -, hstart, hstop⟩ := h.2 t ht
  have hpos := h.1.1 t ht
  intro hnil
  rw [hnil, Text.size_nil] at hstop
  omega

end Sliced

theorem partitions_fuseWith (passes : List Fusion) (horder : InOrder ts)
    (hat : ∀ t ∈ ts, t.At line) : Partitions line ts (fuseWith passes line ts) := by
  induction passes generalizing ts with
  | nil => exact .refl line ts
  | cons pass passes ih =>
    exact (partitions_coalesce horder hat).trans
      (ih (inOrder_coalesce horder) (at_of_mem_coalesce horder hat))

theorem foldlM_run?_eq_some (passes : List Fusion) (horder : InOrder ts)
    (hat : ∀ t ∈ ts, t.At line) :
    passes.foldlM (fun ts pass => pass.run? line ts) ts = some (fuseWith passes line ts) := by
  induction passes generalizing ts with
  | nil => rfl
  | cons pass passes ih =>
    rw [List.foldlM_cons, pass.run?_eq_some horder hat]
    exact ih (inOrder_coalesce horder) (at_of_mem_coalesce horder hat)

theorem Token.At.isBoundary {t : Token} (h : t.At line) :
    Text.IsBoundary line t.start ∧ Text.IsBoundary line t.stop := by
  obtain ⟨u, v, hline, hstart, hstop⟩ := h
  exact ⟨⟨u, t.value ++ v, by rw [hline, List.append_assoc], hstart⟩,
    u ++ t.value, v, hline, by rw [hstop, Text.size_append]⟩

/-- Passes may run in any order and any number of times on the tokens of a line: each of them ends
without a failed access, and each token that it makes is one that it was given or the slice of the
line from one of them to a later one. So the tokens stay in order, none of them empty, each end at a
character, and every token of the line is in exactly one of them. -/
theorem fusion_partitions (line : Text) (passes : List Fusion) :
    let ts := fuseWith passes line (tokenize line)
    passes.foldlM (fun ts pass => pass.run? line ts) (tokenize line) = some ts ∧
      (∀ pass : Fusion, pass.run? line ts = some (pass.apply line ts) ∧
        Partitions line ts (pass.apply line ts)) ∧
      Partitions line (tokenize line) ts ∧
      InOrder ts ∧
      (∀ t ∈ ts, Text.IsBoundary line t.start ∧ Text.IsBoundary line t.stop ∧
        Text.slice? t.start t.stop line = some t.value) ∧
      ∀ u ∈ tokenize line, ∃! t, t ∈ ts ∧ t.start ≤ u.start ∧ u.stop ≤ t.stop := by
  intro ts
  have horder : InOrder (tokenize line) := inOrder_tokenizeFrom 0 line
  have hat : ∀ t ∈ tokenize line, t.At line := fun t ht => at_of_mem_tokenize ht
  have hfused : InOrder ts := inOrder_fuseWith passes horder
  have hslices : ∀ t ∈ ts, t.At line := at_of_mem_fuseWith passes horder hat
  refine ⟨foldlM_run?_eq_some passes horder hat, fun pass => ?_,
    partitions_fuseWith passes horder hat, hfused, fun t ht => ?_, fun u hu => ?_⟩
  · exact ⟨pass.run?_eq_some hfused hslices, partitions_coalesce hfused hslices⟩
  · exact ⟨(hslices t ht).isBoundary.1, (hslices t ht).isBoundary.2, (hslices t ht).slice?⟩
  · obtain ⟨t, ht, hstart, hstop⟩ := exists_covering_fuseWith line passes horder hu
    have hpos := horder.1 u hu
    refine ⟨t, ⟨ht, hstart, hstop⟩, ?_⟩
    rintro s ⟨hs, hstart', hstop'⟩
    exact hfused.eq_of_overlap hs ht (by omega) (by omega)

/-- Braces inside of a substitution, a word on both sides of it, and a redirection. -/
def nestedLine : Text := "é$(a {}b)c 2>&1".toList

/-- Passes out of their usual order, one of them twice. -/
def mixedPasses : List Fusion :=
  [.emptyBraces, .descriptorRedirection, .commandSubstitution, .emptyBraces]

theorem fusion_partitions_nestedLine :
    mixedPasses.foldlM (fun ts pass => pass.run? nestedLine ts) (tokenize nestedLine) =
        some [⟨"é$(a {}b)c".toList, 0, 11, none⟩, ⟨"2>&1".toList, 12, 16, none⟩] ∧
      Text.slice? 0 11 nestedLine = some "é$(a {}b)c".toList ∧
      ⟨['b'], 8, 9, none⟩ ∈ tokenize nestedLine ∧
      ∃! t, t ∈ fuseWith mixedPasses nestedLine (tokenize nestedLine) ∧
        t.start ≤ 8 ∧ 9 ≤ t.stop := by
  have hfused : fuseWith mixedPasses nestedLine (tokenize nestedLine) =
      [⟨"é$(a {}b)c".toList, 0, 11, none⟩, ⟨"2>&1".toList, 12, 16, none⟩] := by
    decide +kernel
  have hmem : ⟨['b'], 8, 9, none⟩ ∈ tokenize nestedLine := by decide +kernel
  obtain ⟨hrun, -, -, -, hslices, hcover⟩ := fusion_partitions nestedLine mixedPasses
  rw [hfused] at hrun hslices
  exact ⟨hrun, (hslices _ List.mem_cons_self).2.2, hmem, hcover _ hmem⟩

end CrossShell
