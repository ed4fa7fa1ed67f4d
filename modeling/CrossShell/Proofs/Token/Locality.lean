import CrossShell.Proofs.Token.Append
import CrossShell.Token.Fusion
import Mathlib.Tactic.ByContra

/-!
# How far the fusion passes reach

The fusion passes glue tokens that touch, groups, and a here-document to its delimiter. What a pass
does to the tokens of a text depends on the text alone, if the pass does not run into what follows.

* `Parted`: two lists of tokens that touch at most at a redirection operator.
* `IsLocal`: a pass that does not reach a word behind the tokens reaches nothing parted from them.
* `coalesce_append`: such a pass goes over both lists one after the other.
* `Fusion.extent_marker_le`: a pass that stops in front of one word and what stands behind it stops in
  front of any word.
* `coalesce_shift`: what stands around a text only moves what a pass forms in it.
-/

namespace CrossShell

/-! ## Cutting by bytes -/

namespace Text

theorem dropBytes_size_add (pre : Text) (n : Nat) (t : Text) :
    dropBytes (size pre + n) (pre ++ t) = dropBytes n t := by
  induction pre with
  | nil => simp
  | cons c pre ih =>
    obtain ⟨k, hk⟩ : ∃ k, c.utf8Size + size pre + n = k + 1 :=
      ⟨c.utf8Size + size pre + n - 1, by have := c.utf8Size_pos; omega⟩
    have hrest : k + 1 - c.utf8Size = size pre + n := by omega
    rw [size_cons, hk, List.cons_append, dropBytes, hrest, ih]

theorem takeBytes_append_of_le {n : Nat} {s : Text} (h : n ≤ size s) (t : Text) :
    takeBytes n (s ++ t) = takeBytes n s := by
  induction s generalizing n with
  | nil =>
    obtain rfl : n = 0 := by simpa using h
    simp
  | cons c s ih =>
    cases n with
    | zero => simp
    | succ n =>
      rw [size_cons] at h
      rw [List.cons_append, takeBytes, takeBytes, ih (by omega)]

/-- Whether a byte offset stands between two characters of a text. -/
def IsBoundary (t : Text) (n : Nat) : Prop := ∃ u v, t = u ++ v ∧ n = size u

/-- A slice of a text does not depend on what stands around the text. -/
theorem slice_shift {w : Text} {a b : Nat} (ha : IsBoundary w a) (hb : b ≤ size w)
    (pre post : Text) :
    slice (size pre + a) (size pre + b) (pre ++ (w ++ post)) = slice a b w := by
  obtain ⟨u, v, rfl, rfl⟩ := ha
  have hle : b - size u ≤ size v := by rw [size_append] at hb; omega
  have hdiff : size pre + b - (size pre + size u) = b - size u := by omega
  rw [slice, slice, dropBytes_size_add, hdiff, List.append_assoc, dropBytes_append,
    dropBytes_append, takeBytes_append_of_le hle]

end Text

/-! ## Parted tokens -/

/-- A word of one letter, to stand behind other tokens. -/
def marker (start : Nat) : Token := ⟨['x'], start, start + 1, none⟩

/-- Only a redirection operator at the front of the second list may touch tokens of the first. -/
def Parted (T S : List Token) : Prop :=
  ∀ t ∈ T, ∀ s ∈ S.head?, t.touches s = true → s.isRedirectOperator = true

theorem Parted.tail {t : Token} {T S : List Token} (h : Parted (t :: T) S) : Parted T S :=
  fun u hu => h u (List.mem_cons_of_mem _ hu)

theorem parted_nil (T : List Token) : Parted T [] := fun _ _ _ hs => by cases hs

theorem parted_of_lt {x : Token} {T S : List Token} (h : ∀ t ∈ T, t.stop < x.start) :
    Parted T (x :: S) := by
  intro t ht s hs htouch
  obtain rfl : x = s := Option.some.inj hs
  have hlt := h t ht
  have heq : t.stop = x.start := beq_iff_eq.mp htouch
  omega

theorem Token.eq_of_isRedirectOperator {s : Token} (h : s.isRedirectOperator = true) :
    s.quote = none ∧ s.value ∈ [['>'], ['>', '>'], ['<']] := by
  simp only [isRedirectOperator, isBare, Bool.or_eq_true, Bool.and_eq_true,
    Option.isNone_iff_eq_none, beq_iff_eq] at h
  rcases h with (⟨hq, hv⟩ | ⟨hq, hv⟩) | ⟨hq, hv⟩ <;> exact ⟨hq, by rw [hv]; decide⟩

/-- A redirection operator is none of the texts that open or close something. -/
theorem Token.isBare_of_isRedirectOperator {s : Token} (h : s.isRedirectOperator = true) {o : Text}
    (ho : o ∈ [['('], ['{'], ['}'], ['&'], ['<', '<']]) : s.isBare o = false := by
  have hne : ∀ v ∈ [['>'], ['>', '>'], ['<']], ∀ o ∈ [['('], ['{'], ['}'], ['&'], ['<', '<']],
      (v == o) = false := by decide
  rw [isBare, hne _ (eq_of_isRedirectOperator h).2 o ho, Bool.and_false]

theorem Token.isOperator_of_isRedirectOperator {s : Token} (h : s.isRedirectOperator = true) :
    s.isOperator = true := by
  have hmem : ∀ v ∈ [['>'], ['>', '>'], ['<']], operators.contains v = true := by decide +kernel
  obtain ⟨hq, hv⟩ := eq_of_isRedirectOperator h
  rw [isOperator, hq, hmem _ hv]
  rfl

/-- Behind parted tokens nothing opens that touches them. -/
theorem Parted.isBare_and_touches {t s : Token} {T S : List Token} (h : Parted T (s :: S))
    (ht : t ∈ T) {o : Text} (ho : o ∈ [['('], ['{'], ['}'], ['&'], ['<', '<']]) :
    (s.isBare o && t.touches s) = false := by
  cases htouch : t.touches s with
  | false => exact Bool.and_false _
  | true => rw [Token.isBare_of_isRedirectOperator (h t ht s rfl htouch) ho, Bool.false_and]

/-- So a pass that glues at what opens there glues nothing. -/
theorem Parted.ite_eq_zero {t s : Token} {T S : List Token} (h : Parted T (s :: S)) (ht : t ∈ T)
    {o : Text} (ho : o ∈ [['('], ['{'], ['}'], ['&'], ['<', '<']]) (a : Bool) (n : Nat) :
    (if a && s.isBare o && t.touches s then n else 0) = 0 := by
  rw [Bool.and_assoc, h.isBare_and_touches ht ho, Bool.and_false]
  rfl

/-- Behind parted tokens no word touches them. -/
theorem Parted.touches_and_isOperator {t s : Token} {T S : List Token} (h : Parted T (s :: S))
    (ht : t ∈ T) : (t.touches s && !s.isOperator) = false := by
  cases htouch : t.touches s with
  | false => exact Bool.false_and _
  | true =>
    rw [Token.isOperator_of_isRedirectOperator (h t ht s rfl htouch)]
    rfl

theorem Parted.not_touches_marker {t : Token} {T : List Token} {n : Nat} (h : Parted T [marker n])
    (ht : t ∈ T) : t.touches (marker n) = false := by
  cases htouch : t.touches (marker n) with
  | false => rfl
  | true => cases h t ht (marker n) rfl htouch

/-! ## What a pass reaches -/

/-- Going over the tokens as a pass does, it never reaches the token `x` behind them. -/
def Fits (extent : Token → List Token → Nat) (x : Token) : Nat → List Token → Prop
  | 0, [] => True
  | _ + 1, [] => False
  | skip + 1, _ :: ts => Fits extent x skip ts
  | 0, t :: ts => extent t (ts ++ [x]) ≤ ts.length ∧ Fits extent x (extent t (ts ++ [x])) ts

/-- If a pass does not reach a plain word apart from the tokens, then it reaches nothing that is
parted from them, as long as the last token is `free` where something touches it. -/
def IsLocal (free : Token → Prop) (extent : Token → List Token → Nat) : Prop :=
  ∀ (t : Token) (ts : List Token) (n : Nat) (S : List Token), Parted (t :: ts) [marker n] →
    extent t (ts ++ [marker n]) ≤ ts.length → Parted (t :: ts) S →
    (ts = [] → ∀ s ∈ S.head?, t.touches s = true → free t) →
    extent t (ts ++ S) = extent t (ts ++ [marker n])

/-- A pass that does not reach further goes over both parts one after the other. -/
theorem coalesce_append {free : Token → Prop} {extent : Token → List Token → Nat}
    (hl : IsLocal free extent) (line : Text) {n skip : Nat} {T S : List Token}
    (hx : Parted T [marker n]) (hS : Parted T S) (hf : Fits extent (marker n) skip T)
    (hfree : ∀ t ∈ coalesce line extent skip T, ∀ s ∈ S.head?, t.touches s = true → free t) :
    coalesce line extent skip (T ++ S) =
      coalesce line extent skip T ++ coalesce line extent 0 S := by
  induction T generalizing skip with
  | nil =>
    cases skip with
    | zero => rfl
    | succ skip => cases hf
  | cons t ts ih =>
    cases skip with
    | succ skip => exact ih hx.tail hS.tail hf hfree
    | zero =>
      obtain ⟨hle, hrest⟩ := hf
      have halone := hl t ts n [] hx hle (parted_nil _) fun _ _ hs => by cases hs
      have hreach := hl t ts n S hx hle hS <| by
        rintro rfl s hs
        exact hfree t (by simp [coalesce]) s hs
      rw [List.append_nil] at halone
      have htake : (ts ++ S).take (extent t (ts ++ S)) = ts.take (extent t ts) := by
        rw [hreach, halone, List.take_append_of_le_length hle]
      have hlength : (ts.take (extent t ts)).length = extent t (ts ++ [marker n]) := by
        rw [halone, List.length_take, Nat.min_eq_left hle]
      have htail : ∀ u ∈ coalesce line extent (extent t (ts ++ [marker n])) ts, ∀ s ∈ S.head?,
          u.touches s = true → free u := by
        intro u hu
        refine hfree u ?_
        rw [coalesce, hlength]
        exact List.mem_cons_of_mem _ hu
      rw [List.cons_append, coalesce, coalesce, htake, hlength, ih hx.tail hS.tail hrest htail]
      rfl

theorem exists_stop_merge (line : Text) (first : Token) (more : List Token) :
    ∃ u ∈ first :: more, u.stop = (first.merge line more).stop := by
  cases hlast : more.getLast? with
  | none => exact ⟨first, List.mem_cons_self, by simp [Token.merge, hlast]⟩
  | some last =>
    exact ⟨last, List.mem_cons_of_mem _ (List.mem_of_getLast? hlast), by simp [Token.merge, hlast]⟩

/-- Passes form tokens that start and stop where tokens did. -/
theorem exists_of_mem_coalesce {line : Text} {extent : Token → List Token → Nat} {skip : Nat}
    {ts : List Token} {t : Token} (h : t ∈ coalesce line extent skip ts) :
    (∃ u ∈ ts, u.start = t.start) ∧ ∃ u ∈ ts, u.stop = t.stop := by
  induction ts generalizing skip with
  | nil => simp [coalesce] at h
  | cons u ts ih =>
    have hlift : ∀ {skip}, t ∈ coalesce line extent skip ts →
        (∃ v ∈ u :: ts, v.start = t.start) ∧ ∃ v ∈ u :: ts, v.stop = t.stop := by
      intro skip ht
      obtain ⟨⟨v, hv, hstart⟩, v', hv', hstop⟩ := ih ht
      exact ⟨⟨v, List.mem_cons_of_mem _ hv, hstart⟩, v', List.mem_cons_of_mem _ hv', hstop⟩
    cases skip with
    | succ skip => exact hlift h
    | zero =>
      rw [coalesce] at h
      rcases List.mem_cons.mp h with ht | h
      · split at ht
        · exact ⟨⟨u, List.mem_cons_self, by rw [ht]⟩, u, List.mem_cons_self, by rw [ht]⟩
        · refine ⟨⟨u, List.mem_cons_self, by rw [ht]; rfl⟩, ?_⟩
          obtain ⟨v, hv, hstop⟩ := exists_stop_merge line u (ts.take (extent u ts))
          refine ⟨v, ?_, by rw [ht, hstop]⟩
          rcases List.mem_cons.mp hv with rfl | hv
          · exact List.mem_cons_self
          · exact List.mem_cons_of_mem _ (List.mem_of_mem_take hv)
      · exact hlift h

/-- A pass that fits has no more to pass over than there is. -/
theorem Fits.skip_le {extent : Token → List Token → Nat} {x : Token} {skip : Nat} {T : List Token}
    (h : Fits extent x skip T) : skip ≤ T.length := by
  induction T generalizing skip with
  | nil =>
    cases skip with
    | zero => exact Nat.zero_le _
    | succ skip => cases h
  | cons t ts ih =>
    cases skip with
    | zero => exact Nat.zero_le _
    | succ skip => exact Nat.succ_le_succ (ih h)

/-- If a token starts where the one behind `T` does, the pass did not run into it, and would not
run into a token `y` that makes no difference to a pass that stops in front of it. -/
theorem fits_of_mem_coalesce {line : Text} {extent : Token → List Token → Nat} {x y : Token}
    {skip : Nat} {T S : List Token}
    (hsame : ∀ t us, t :: us <:+ T → extent t (us ++ x :: S) ≤ us.length →
      extent t (us ++ [y]) = extent t (us ++ x :: S))
    (hne : ∀ t ∈ T ++ S, t.start ≠ x.start)
    (h : ∃ t ∈ coalesce line extent skip (T ++ x :: S), t.start = x.start) :
    Fits extent y skip T := by
  induction T generalizing skip with
  | nil =>
    cases skip with
    | zero => trivial
    | succ skip =>
      obtain ⟨u, hu, hstart⟩ := h
      have hu' : u ∈ coalesce line extent skip S := hu
      obtain ⟨⟨s, hs, hs'⟩, -⟩ := exists_of_mem_coalesce hu'
      exact absurd (hs'.trans hstart) (hne s hs)
  | cons t ts ih =>
    have hsame' : ∀ u us, u :: us <:+ ts → extent u (us ++ x :: S) ≤ us.length →
        extent u (us ++ [y]) = extent u (us ++ x :: S) :=
      fun u us hus => hsame u us (hus.trans (List.suffix_cons t ts))
    have hne' : ∀ u ∈ ts ++ S, u.start ≠ x.start := fun u hu => hne u (List.mem_cons_of_mem _ hu)
    cases skip with
    | succ skip => exact ih hsame' hne' h
    | zero =>
      obtain ⟨u, hu, hstart⟩ := h
      rw [List.cons_append, coalesce, List.length_take] at hu
      rcases List.mem_cons.mp hu with hmerge | hu
      · -- The token formed here starts where `t` does.
        have hfirst : u.start = t.start := by
          rw [hmerge]
          split <;> rfl
        exact absurd (hfirst.symm.trans hstart) (hne t List.mem_cons_self)
      · have hrest := ih hsame' hne' ⟨u, hu, hstart⟩
        have hskip := hrest.skip_le
        rw [List.length_append, List.length_cons] at hskip
        have hle : extent t (ts ++ x :: S) ≤ ts.length := by omega
        rw [Nat.min_eq_left (by rw [List.length_append]; omega),
          ← hsame t ts (List.suffix_refl _) hle] at hrest
        exact ⟨hrest.skip_le, hrest⟩

/-! ## The passes are local -/

theorem groupLength_append {opener closer : Text} {depth n : Nat} {ts : List Token}
    (ho : (marker n).isBare opener = false) (hc : (marker n).isBare closer = false)
    (h : groupLength opener closer depth (ts ++ [marker n]) ≤ ts.length) (S : List Token) :
    groupLength opener closer depth (ts ++ S) =
      groupLength opener closer depth (ts ++ [marker n]) := by
  induction ts generalizing depth with
  | nil => simp [groupLength, ho, hc] at h
  | cons t ts ih =>
    simp only [List.cons_append, groupLength, List.length_cons] at h ⊢
    split
    · rw [if_pos ‹_›] at h
      rw [ih (by omega)]
    · rw [if_neg ‹_›] at h
      split
      · rw [if_pos ‹_›] at h
        split
        · rfl
        · rw [if_neg ‹_›] at h
          rw [ih (by omega)]
      · rw [if_neg ‹_›] at h
        rw [ih (by omega)]

theorem adjacentLength_append {last : Token} {ts S : List Token} (h : Parted (last :: ts) S) :
    adjacentLength last (ts ++ S) = adjacentLength last ts := by
  induction ts generalizing last with
  | nil =>
    cases S with
    | nil => rfl
    | cons s S =>
      rw [List.nil_append, adjacentLength, adjacentLength,
        h.touches_and_isOperator List.mem_cons_self]
      rfl
  | cons t ts ih => simp only [List.cons_append, adjacentLength, ih h.tail]

/-- The token that the first ones end with is one of them. -/
theorem getLast_take_mem (t : Token) (ts : List Token) (n : Nat) :
    (ts.take n).getLast?.getD t ∈ t :: ts.take n := by
  cases hlast : (ts.take n).getLast? with
  | none => exact List.mem_cons_self
  | some last => exact List.mem_cons_of_mem _ (List.mem_of_getLast? hlast)

theorem withAdjacent_append {t : Token} {ts S : List Token} (h : Parted (t :: ts) S) {n : Nat}
    (hn : n ≤ ts.length) : withAdjacent t (ts ++ S) n = withAdjacent t ts n := by
  rw [withAdjacent, withAdjacent, List.take_append_of_le_length hn,
    List.drop_append_of_le_length hn, adjacentLength_append]
  intro u hu s hs
  refine h u ?_ s hs
  rcases List.mem_cons.mp hu with rfl | hu
  · rcases List.mem_cons.mp (getLast_take_mem t ts n) with heq | hmem
    · rw [heq]
      exact List.mem_cons_self
    · exact List.mem_cons_of_mem _ (List.mem_of_mem_take hmem)
  · exact List.mem_cons_of_mem _ (List.mem_of_mem_drop hu)

/-- A group that is closed in front of some tokens is closed in front of any word. -/
theorem groupLength_marker_le {opener closer : Text} {depth n : Nat} {ts S : List Token}
    (hS : S ≠ []) (h : groupLength opener closer depth (ts ++ S) ≤ ts.length) :
    groupLength opener closer depth (ts ++ [marker n]) ≤ ts.length := by
  induction ts generalizing depth with
  | nil =>
    obtain ⟨s, S, rfl⟩ := List.exists_cons_of_ne_nil hS
    rw [List.nil_append, groupLength] at h
    split at h
    · cases h
    · split at h
      · split at h <;> cases h
      · cases h
  | cons t ts ih =>
    simp only [List.cons_append, groupLength, List.length_cons] at h ⊢
    split
    · rw [if_pos ‹_›] at h
      exact Nat.succ_le_succ (ih (Nat.le_of_succ_le_succ h))
    rw [if_neg ‹_›] at h
    split
    · rw [if_pos ‹_›] at h
      split
      · omega
      · rw [if_neg ‹_›] at h
        exact Nat.succ_le_succ (ih (Nat.le_of_succ_le_succ h))
    · rw [if_neg ‹_›] at h
      exact Nat.succ_le_succ (ih (Nat.le_of_succ_le_succ h))

namespace Fusion

variable {free : Token → Prop}

theorem isLocal_dollarGroupExtent {opener closer : Text}
    (ho : opener ∈ [['('], ['{'], ['}'], ['&'], ['<', '<']])
    (hp : ∀ n, (marker n).isBare opener = false) (hc : ∀ n, (marker n).isBare closer = false) :
    IsLocal free (dollarGroupExtent opener closer) := by
  intro t ts n S hx hle hS _
  cases ts with
  | nil =>
    have hzero : ∀ {S}, Parted [t] S → dollarGroupExtent opener closer t S = 0 := by
      intro S hS
      cases S with
      | nil => rfl
      | cons s S => exact hS.ite_eq_zero List.mem_cons_self ho _ _
    rw [List.nil_append, List.nil_append, hzero hS, hzero hx]
  | cons next ts =>
    simp only [List.cons_append, dollarGroupExtent] at hle ⊢
    split
    · rw [if_pos ‹_›] at hle
      have hgroup : groupLength opener closer 0 (next :: ts ++ [marker n]) ≤ (next :: ts).length :=
        Nat.le_trans (Nat.le_add_right _ _) hle
      have hsame := groupLength_append (hp n) (hc n) hgroup S
      simp only [← List.cons_append]
      rw [hsame, withAdjacent_append hS hgroup, withAdjacent_append hx hgroup]
    · rfl

theorem isLocal_emptyBracesExtent : IsLocal free emptyBracesExtent := by
  intro t ts n S hx hle hS _
  cases ts with
  | nil =>
    have hzero : ∀ {S}, Parted [t] S → emptyBracesExtent t S = 0 := by
      intro S hS
      cases S with
      | nil => rfl
      | cons s S => exact hS.ite_eq_zero List.mem_cons_self (by decide) _ _
    rw [List.nil_append, List.nil_append, hzero hS, hzero hx]
  | cons next ts =>
    simp only [List.cons_append, emptyBracesExtent]
    simp only [← List.cons_append]
    rw [withAdjacent_append hS (by simp), withAdjacent_append hx (by simp)]

/-- A here-document that has no delimiter yet takes any word. -/
theorem heredocExtent_marker (t : Token) (n : Nat) :
    heredocExtent t [marker n] = if t.isBare "<<" then 1 else 0 := by
  have hoperator : (!(marker n).isOperator) = true := rfl
  rw [heredocExtent, hoperator, Bool.and_true]

theorem isLocal_heredocExtent : IsLocal free heredocExtent := by
  intro t ts n S _ hle _ _
  cases ts with
  | cons next ts => rfl
  | nil =>
    simp only [List.nil_append, heredocExtent_marker] at hle ⊢
    have ht : ¬t.isBare "<<" = true := by
      intro hbare
      rw [if_pos hbare] at hle
      cases hle
    rw [if_neg ht]
    cases S with
    | nil => rfl
    | cons s S =>
      rw [heredocExtent, Bool.eq_false_iff.mpr ht, Bool.false_and]
      rfl

theorem isLocal_processSubstitutionExtent : IsLocal free processSubstitutionExtent := by
  intro t ts n S hx hle hS _
  cases ts with
  | nil =>
    have hzero : ∀ {S}, Parted [t] S → processSubstitutionExtent t S = 0 := by
      intro S hS
      cases S with
      | nil => rfl
      | cons s S => exact hS.ite_eq_zero List.mem_cons_self (by decide) _ _
    rw [List.nil_append, List.nil_append, hzero hS, hzero hx]
  | cons next ts =>
    simp only [List.cons_append, processSubstitutionExtent] at hle ⊢
    split
    · rw [if_pos ‹_›] at hle
      have hgroup : groupLength "(" ")" 0 (next :: ts ++ [marker n]) ≤ (next :: ts).length := hle
      exact groupLength_append rfl rfl hgroup S
    · rfl

theorem startsDuplication_append {last : Token} {ts S : List Token} (h : Parted (last :: ts) S) :
    startsDuplication last (ts ++ S) = startsDuplication last ts := by
  cases ts with
  | cons t ts => rfl
  | nil =>
    cases S with
    | nil => rfl
    | cons s S => exact h.isBare_and_touches List.mem_cons_self (by decide)

theorem startsTarget_append {last : Token} {ts S : List Token} (h : Parted (last :: ts) S) :
    startsTarget last (ts ++ S) = startsTarget last ts := by
  cases ts with
  | cons t ts => rfl
  | nil =>
    cases S with
    | nil => rfl
    | cons s S =>
      rw [List.nil_append, startsTarget, startsTarget, h.touches_and_isOperator List.mem_cons_self]
      rfl

theorem targetExtent_append {last : Token} {ts S : List Token} (h : Parted (last :: ts) S) :
    targetExtent last (ts ++ S) = targetExtent last ts := by
  unfold targetExtent
  rw [startsDuplication_append h, startsTarget_append h]
  cases ts with
  | nil => rfl
  | cons amp rest =>
    simp only [List.cons_append]
    rw [startsTarget_append h.tail]

/-- The last pass only follows tokens that touch. -/
theorem descriptorRedirectionExtent_append {t : Token} {ts S : List Token} (h : Parted (t :: ts) S)
    (hfree : ts = [] → ∀ s ∈ S.head?, t.touches s = true → t.isDescriptor = false) :
    descriptorRedirectionExtent t (ts ++ S) = descriptorRedirectionExtent t ts := by
  cases ts with
  | nil =>
    cases S with
    | nil => rfl
    | cons s S =>
      have hdescriptor : (t.isDescriptor && s.isRedirectOperator && t.touches s) = false := by
        cases htouch : t.touches s with
        | false => exact Bool.and_false _
        | true => rw [hfree rfl s rfl htouch, Bool.false_and, Bool.false_and]
      rw [List.nil_append, descriptorRedirectionExtent, descriptorRedirectionExtent, hdescriptor]
      exact h.ite_eq_zero List.mem_cons_self (by decide) _ _
  | cons next ts =>
    have hself : Parted (t :: next :: ts) S := h
    simp only [List.cons_append, descriptorRedirectionExtent, targetExtent_append h.tail]
    rw [← List.cons_append, targetExtent_append hself]

/-- What the last token must be so that the pass does not glue a redirection to it. -/
def Free : Fusion → Token → Prop
  | descriptorRedirection, t => t.isDescriptor = false
  | _, _ => True

theorem isLocal_descriptorRedirectionExtent :
    IsLocal (Free descriptorRedirection) descriptorRedirectionExtent := by
  intro t ts n S hx _ hS hfree
  rw [descriptorRedirectionExtent_append hS hfree, descriptorRedirectionExtent_append hx]
  rintro rfl s hs htouch
  obtain rfl : marker n = s := Option.some.inj hs
  rw [hx.not_touches_marker List.mem_cons_self] at htouch
  cases htouch

theorem isLocal_extent (pass : Fusion) : IsLocal pass.Free pass.extent := by
  cases pass with
  | commandSubstitution => exact isLocal_dollarGroupExtent (by decide) (fun _ => rfl) (fun _ => rfl)
  | braceExpansion => exact isLocal_dollarGroupExtent (by decide) (fun _ => rfl) (fun _ => rfl)
  | emptyBraces => exact isLocal_emptyBracesExtent
  | heredoc => exact isLocal_heredocExtent
  | processSubstitution => exact isLocal_processSubstitutionExtent
  | descriptorRedirection => exact isLocal_descriptorRedirectionExtent

theorem targetExtent_le (last : Token) (ts : List Token) :
    targetExtent last ts ≤ ts.length := by
  unfold targetExtent
  cases ts with
  | nil => simp [startsDuplication, startsTarget]
  | cons amp rest =>
    simp only [List.length_cons]
    split
    · cases rest with
      | nil => simp [startsTarget]
      | cons t rest => split <;> simp
    · split <;> omega

theorem descriptorRedirectionExtent_le (t : Token) (ts : List Token) :
    descriptorRedirectionExtent t ts ≤ ts.length := by
  cases ts with
  | nil => exact Nat.le_refl 0
  | cons next ts =>
    have hnext := targetExtent_le next ts
    have hself := targetExtent_le t (next :: ts)
    rw [List.length_cons] at hself ⊢
    rw [descriptorRedirectionExtent]
    split
    · omega
    · split <;> omega

theorem dollarGroupExtent_marker_le {opener closer : Text} {t x : Token} {ts S : List Token}
    {n : Nat} (hmarker : (marker n).isBare opener = false)
    (hcloser : (marker n).isBare closer = false) (hm : Parted (t :: ts) [marker n])
    (hS : Parted (t :: ts) (x :: S))
    (h : dollarGroupExtent opener closer t (ts ++ x :: S) ≤ ts.length) :
    dollarGroupExtent opener closer t (ts ++ [marker n]) ≤ ts.length := by
  cases ts with
  | nil => simp [dollarGroupExtent, hmarker]
  | cons next ts =>
    simp only [List.cons_append, dollarGroupExtent] at h ⊢
    split
    · rw [if_pos ‹_›] at h
      simp only [← List.cons_append] at h ⊢
      have hgroup := Nat.le_trans (Nat.le_add_right _ _) h
      have hgroup' := groupLength_marker_le (n := n) (List.cons_ne_nil _ _) hgroup
      rwa [withAdjacent_append hm hgroup', ← groupLength_append hmarker hcloser hgroup' (x :: S),
        ← withAdjacent_append hS hgroup]
    · exact Nat.zero_le _

/-- A pass that stops in front of a word and what stands behind it stops in front of any word. -/
theorem extent_marker_le (pass : Fusion) {t x : Token} {ts S : List Token}
    (hx : x.isOperator = false)
    (hlt : ∀ u ∈ t :: ts, u.stop < x.start) (h : pass.extent t (ts ++ x :: S) ≤ ts.length) :
    pass.extent t (ts ++ [marker x.start]) ≤ ts.length := by
  have hm : Parted (t :: ts) [marker x.start] := parted_of_lt hlt
  have hS : Parted (t :: ts) (x :: S) := parted_of_lt hlt
  cases pass with
  | commandSubstitution => exact dollarGroupExtent_marker_le rfl rfl hm hS h
  | braceExpansion => exact dollarGroupExtent_marker_le rfl rfl hm hS h
  | emptyBraces =>
    cases ts with
    | nil => simp [extent, emptyBracesExtent, marker, Token.isBare]
    | cons next ts =>
      simp only [extent, List.cons_append, emptyBracesExtent] at h ⊢
      simp only [← List.cons_append] at h ⊢
      rwa [withAdjacent_append hm (by simp), ← withAdjacent_append hS (by simp)]
  | heredoc =>
    cases ts with
    | nil =>
      simp only [extent, List.nil_append, heredocExtent_marker]
      simpa [extent, heredocExtent, hx] using h
    | cons next ts => exact h
  | processSubstitution =>
    cases ts with
    | nil => simp [extent, processSubstitutionExtent, marker, Token.isBare]
    | cons next ts =>
      simp only [extent, List.cons_append, processSubstitutionExtent] at h ⊢
      split
      · rw [if_pos ‹_›] at h
        simp only [← List.cons_append] at h ⊢
        exact groupLength_marker_le (List.cons_ne_nil _ _) h
      · exact Nat.zero_le _
  | descriptorRedirection =>
    rw [extent, descriptorRedirectionExtent_append hm]
    · exact descriptorRedirectionExtent_le t ts
    · intro _ s hs htouch
      obtain rfl : marker x.start = s := Option.some.inj hs
      rw [hm.not_touches_marker List.mem_cons_self] at htouch
      cases htouch

/-- If a token starts where a word behind the tokens does, the pass did not run into the word. -/
theorem fits_of_mem {pass : Fusion} {line : Text} {x : Token} {T S : List Token}
    (hx : x.isOperator = false) (hlt : ∀ u ∈ T, u.stop < x.start)
    (hne : ∀ u ∈ T ++ S, u.start ≠ x.start)
    (h : ∃ u ∈ pass.apply line (T ++ x :: S), u.start = x.start) :
    Fits pass.extent (marker x.start) 0 T := by
  refine fits_of_mem_coalesce (fun t us hus hle => ?_) hne h
  have hlt' : ∀ u ∈ t :: us, u.stop < x.start := fun u hu => hlt u (hus.subset hu)
  refine (pass.isLocal_extent t us x.start (x :: S) (parted_of_lt hlt')
    (pass.extent_marker_le hx hlt' hle) (parted_of_lt hlt') fun _ s hs htouch => ?_).symm
  obtain rfl : x = s := Option.some.inj hs
  have := hlt' t List.mem_cons_self
  have := beq_iff_eq.mp htouch
  omega

end Fusion

/-! ## Where a text stands -/

@[simp] theorem Token.shift_zero : Token.shift 0 = id := by
  funext t
  simp [Token.shift]

@[simp] theorem Token.touches_shift (n : Nat) (t s : Token) :
    (t.shift n).touches (s.shift n) = t.touches s := by
  simp [touches, shift]

theorem groupLength_shift (opener closer : Text) (n depth : Nat) (ts : List Token) :
    groupLength opener closer depth (ts.map (Token.shift n)) =
      groupLength opener closer depth ts := by
  induction ts generalizing depth with
  | nil => rfl
  | cons t ts ih =>
    simp only [List.map_cons, groupLength, ih]
    rfl

theorem adjacentLength_shift (n : Nat) (last : Token) (ts : List Token) :
    adjacentLength (last.shift n) (ts.map (Token.shift n)) = adjacentLength last ts := by
  induction ts generalizing last with
  | nil => rfl
  | cons t ts ih =>
    simp only [List.map_cons, adjacentLength, Token.touches_shift, ih]
    rfl

theorem withAdjacent_shift (n : Nat) (t : Token) (ts : List Token) (k : Nat) :
    withAdjacent (t.shift n) (ts.map (Token.shift n)) k = withAdjacent t ts k := by
  rw [withAdjacent, withAdjacent, ← List.map_take, ← List.map_drop, List.getLast?_map,
    ← adjacentLength_shift n _ (ts.drop k)]
  cases (ts.take k).getLast? <;> rfl

namespace Fusion

theorem targetExtent_shift (n : Nat) (t : Token) (ts : List Token) :
    targetExtent (t.shift n) (ts.map (Token.shift n)) = targetExtent t ts := by
  cases ts with
  | nil => rfl
  | cons amp ts =>
    cases ts <;> simp only [targetExtent, startsDuplication, startsTarget, List.map_cons,
      List.map_nil, Token.touches_shift] <;> rfl

/-- How far a pass reaches does not depend on where the tokens stand. -/
theorem extent_shift (pass : Fusion) (n : Nat) (t : Token) (ts : List Token) :
    pass.extent (t.shift n) (ts.map (Token.shift n)) = pass.extent t ts := by
  cases ts with
  | nil => cases pass <;> rfl
  | cons next ts =>
    have hadjacent := withAdjacent_shift n t (next :: ts)
    have hgroup := fun opener closer => groupLength_shift opener closer n 0 (next :: ts)
    have htarget := targetExtent_shift n t (next :: ts)
    rw [List.map_cons] at hadjacent hgroup htarget
    cases pass <;> simp only [extent, dollarGroupExtent, emptyBracesExtent, heredocExtent,
      processSubstitutionExtent, descriptorRedirectionExtent, List.map_cons, Token.touches_shift,
      hadjacent, hgroup, htarget, targetExtent_shift] <;> rfl

end Fusion

/-- A token that covers a piece of the text. -/
def Token.Inside (w : Text) (t : Token) : Prop := Text.IsBoundary w t.start ∧ t.stop ≤ Text.size w

theorem Token.merge_shift {w : Text} {first : Token} {more : List Token} (hf : first.Inside w)
    (hm : ∀ t ∈ more, t.Inside w) (pre post : Text) :
    (first.shift (Text.size pre)).merge (pre ++ (w ++ post))
        (more.map (Token.shift (Text.size pre))) =
      (first.merge w more).shift (Text.size pre) := by
  have hstop : (more.getLast?.getD first).stop ≤ Text.size w := by
    cases hlast : more.getLast? with
    | none => exact hf.2
    | some last => exact (hm last (List.mem_of_getLast? hlast)).2
  have hlast : ((more.map (Token.shift (Text.size pre))).getLast?.getD
      (first.shift (Text.size pre))).stop = Text.size pre + (more.getLast?.getD first).stop := by
    rw [List.getLast?_map]
    cases more.getLast? <;> rfl
  rw [merge, merge, hlast, ← Text.slice_shift hf.1 hstop pre post]
  rfl

/-- What a pass glues in a text does not depend on what stands around the text. -/
theorem coalesce_shift {w : Text} (pass : Fusion) {ts : List Token} (h : ∀ t ∈ ts, t.Inside w)
    (pre post : Text) (skip : Nat) :
    coalesce (pre ++ (w ++ post)) pass.extent skip (ts.map (Token.shift (Text.size pre))) =
      (coalesce w pass.extent skip ts).map (Token.shift (Text.size pre)) := by
  induction ts generalizing skip with
  | nil => simp [coalesce]
  | cons t ts ih =>
    have hts : ∀ u ∈ ts, u.Inside w := fun u hu => h u (List.mem_cons_of_mem _ hu)
    cases skip with
    | succ skip => exact ih hts skip
    | zero =>
      have hmore : ∀ u ∈ ts.take (pass.extent t ts), u.Inside w :=
        fun u hu => hts u (List.mem_of_mem_take hu)
      rw [List.map_cons, coalesce, coalesce, pass.extent_shift, ← List.map_take, List.length_map,
        List.map_cons, ih hts, Token.merge_shift (h t List.mem_cons_self) hmore]
      simp only [List.isEmpty_map]
      split <;> rfl

theorem Token.Inside.apply {w : Text} (pass : Fusion) {ts : List Token} (h : ∀ t ∈ ts, t.Inside w) :
    ∀ t ∈ pass.apply w ts, t.Inside w := by
  intro t ht
  obtain ⟨⟨u, hu, hstart⟩, v, hv, hstop⟩ := exists_of_mem_coalesce ht
  exact ⟨hstart ▸ (h u hu).1, hstop ▸ (h v hv).2⟩

theorem Placed.inside {pos : Nat} {a : Text} {cuts : List (Token × Text)} (h : Placed pos a cuts) :
    ∀ cut ∈ cuts, ∃ u v, ofCuts a cuts = u ++ cut.1.value ++ v ∧ cut.1.start = pos + Text.size u ∧
      cut.1.stop = cut.1.start + Text.size cut.1.value := by
  induction cuts generalizing pos a with
  | nil => simp
  | cons first cuts ih =>
    obtain ⟨t, b⟩ := first
    obtain ⟨hstart, hstop, hrest⟩ := h
    intro cut hcut
    rcases List.mem_cons.mp hcut with rfl | hcut
    · exact ⟨a, ofCuts b cuts, ofCuts_cons a t b cuts, hstart, hstop⟩
    · obtain ⟨u, v, htext, hpos, hend⟩ := ih hrest cut hcut
      refine ⟨a ++ t.value ++ u, v, by rw [ofCuts_cons, htext]; simp, ?_, hend⟩
      rw [hpos, hstop, hstart, Text.size_append, Text.size_append]
      omega

theorem inside_tokenize (w : Text) : ∀ t ∈ tokenize w, t.Inside w := by
  obtain ⟨a, cuts, htext, hplaced, htokens, -⟩ := exists_placed_tokenizeFrom 0 w
  intro t ht
  rw [tokenize, ← htokens] at ht
  obtain ⟨cut, hcut, rfl⟩ := List.mem_map.mp ht
  obtain ⟨u, v, hsplit, hstart, hstop⟩ := hplaced.inside cut hcut
  rw [htext] at hsplit
  refine ⟨⟨u, cut.1.value ++ v, by rw [hsplit, List.append_assoc], by omega⟩, ?_⟩
  rw [hsplit, Text.size_append, Text.size_append]
  omega

end CrossShell
