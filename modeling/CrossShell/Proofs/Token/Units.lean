import CrossShell.Proofs.Token.Plain
import CrossShell.Proofs.Token.Spans

/-!
# The units of a pass

A pass goes over its tokens from the left and glues them together in units. A unit starts where the
one in front of it ended, so the tokens that it makes stand in order and cover those that it was
given.

* `coalesce_zero_cons`: a pass makes one unit after the other.
* `inOrder_coalesce`, `exists_covering`: what it makes stands in order and covers what was there.
* `StartsUnit`: the places at which units start. `exists_unit`: every place belongs to one of them.
* `Token.At`: a token that is a slice of its line. The tokens that a pass makes are.
-/

namespace CrossShell

variable {line : Text} {extent : Token → List Token → Nat}

/-! ## One unit after the other -/

/-- The token of a unit, from its tokens. -/
def glue (line : Text) (t : Token) (more : List Token) : Token :=
  if more.isEmpty then t else t.merge line more

@[simp] theorem glue_start (t : Token) (more : List Token) :
    (glue line t more).start = t.start := by
  rw [glue]
  split <;> rfl

@[simp] theorem glue_stop (t : Token) (more : List Token) :
    (glue line t more).stop = (more.getLast?.getD t).stop := by
  cases more with
  | nil => rfl
  | cons u more => rfl

theorem coalesce_zero_cons (t : Token) (ts : List Token) :
    coalesce line extent 0 (t :: ts) = glue line t (ts.take (extent t ts)) ::
      coalesce line extent 0 (ts.drop (extent t ts)) := by
  have hskip := coalesce_skip line extent (ts.take (extent t ts)) (ts.drop (extent t ts))
  rw [List.take_append_drop] at hskip
  rw [coalesce, hskip]
  rfl

/-- A token that is no longer unit stays as it is. -/
theorem coalesce_cons_of_extent {t : Token} {ts : List Token} (h : extent t ts = 0) :
    coalesce line extent 0 (t :: ts) = t :: coalesce line extent 0 ts := by
  rw [coalesce_zero_cons, h]
  rfl

variable (line) in
/-- A unit that ends within the first of two parts leaves the second one alone. -/
theorem coalesce_cons_append {t : Token} {us rest : List Token}
    (h : extent t (us ++ rest) ≤ us.length) :
    coalesce line extent 0 (t :: us ++ rest) = glue line t (us.take (extent t (us ++ rest))) ::
      coalesce line extent 0 (us.drop (extent t (us ++ rest)) ++ rest) := by
  rw [List.cons_append, coalesce_zero_cons, List.take_append_of_le_length h,
    List.drop_append_of_le_length h]

variable (line) in
/-- A unit ends where its last token does. -/
theorem exists_stop_eq_glue (t : Token) (more : List Token) :
    ∃ u ∈ t :: more, u.stop = (glue line t more).stop := by
  rw [glue_stop]
  cases hlast : more.getLast? with
  | none => exact ⟨t, List.mem_cons_self, rfl⟩
  | some u => exact ⟨u, List.mem_cons_of_mem t (List.mem_of_getLast? hlast), rfl⟩

variable (line) in
/-- A unit of tokens in order covers each of them. -/
theorem covers_glue {t : Token} {more : List Token} (h : InOrder (t :: more)) {u : Token}
    (hu : u ∈ t :: more) :
    (glue line t more).start ≤ u.start ∧ u.stop ≤ (glue line t more).stop := by
  have hpairs := List.pairwise_cons.mp h.2
  have hpositive := h.1 t List.mem_cons_self
  rw [glue_start, glue_stop]
  rcases List.eq_nil_or_concat more with rfl | ⟨front, last, rfl⟩
  · rw [List.mem_singleton.mp hu]
    exact ⟨Nat.le_refl _, Nat.le_refl _⟩
  rw [List.concat_eq_append] at h hu hpairs ⊢
  rw [List.getLast?_append, List.getLast?_singleton, Option.some_or, Option.getD_some]
  have hlast : last ∈ front ++ [last] := List.mem_append_right _ List.mem_cons_self
  rcases List.mem_cons.mp hu with rfl | hu
  · have := hpairs.1 last hlast
    have := h.1 last (List.mem_cons_of_mem _ hlast)
    omega
  · have := hpairs.1 u hu
    rcases List.mem_append.mp hu with hu | hu
    · have := (List.pairwise_append.mp hpairs.2).2.2 u hu last List.mem_cons_self
      have := h.1 last (List.mem_cons_of_mem _ hlast)
      omega
    · rw [List.mem_singleton.mp hu] at this ⊢
      omega

/-- The tokens that a pass makes stand in order. -/
theorem inOrder_coalesce {ts : List Token} (h : InOrder ts) :
    InOrder (coalesce line extent 0 ts) := by
  induction hn : ts.length using Nat.strongRecOn generalizing ts with
  | ind n ih =>
    cases ts with
    | nil => exact h
    | cons t ts =>
      rw [coalesce_zero_cons]
      have hunit : InOrder (t :: ts.take (extent t ts)) :=
        h.sublist ((List.take_sublist _ _).cons_cons t)
      have hrest : InOrder (ts.drop (extent t ts)) :=
        h.sublist ((List.drop_sublist _ _).trans (List.sublist_cons_self t ts))
      obtain ⟨hpositive, hpairs⟩ := ih _ (by rw [List.length_drop, ← hn, List.length_cons]; omega)
        hrest rfl
      refine ⟨fun u hu => ?_, List.pairwise_cons.mpr ⟨fun u hu => ?_, hpairs⟩⟩
      · rcases List.mem_cons.mp hu with rfl | hu
        · have := covers_glue line hunit List.mem_cons_self
          have := h.1 t List.mem_cons_self
          omega
        · exact hpositive u hu
      · -- What follows starts at a token behind the unit, and the unit ends at one of its own.
        obtain ⟨⟨v, hv, hstart⟩, -⟩ := exists_of_mem_coalesce hu
        obtain ⟨w, hw, hstop⟩ := exists_stop_eq_glue line t (ts.take (extent t ts))
        have hsplit : InOrder ((t :: ts.take (extent t ts)) ++ ts.drop (extent t ts)) := by
          rwa [List.cons_append, List.take_append_drop]
        rw [← hstart, ← hstop]
        exact hsplit.append w hw v hv

variable (line) in
/-- Every token is covered by one that the pass makes. -/
theorem exists_covering {ts : List Token} (h : InOrder ts) {u : Token} (hu : u ∈ ts) :
    ∃ t ∈ coalesce line extent 0 ts, t.start ≤ u.start ∧ u.stop ≤ t.stop := by
  induction hn : ts.length using Nat.strongRecOn generalizing ts with
  | ind n ih =>
    cases ts with
    | nil => cases hu
    | cons t ts =>
      rw [coalesce_zero_cons]
      have hsplit : u ∈ (t :: ts.take (extent t ts)) ++ ts.drop (extent t ts) := by
        rwa [List.cons_append, List.take_append_drop]
      rcases List.mem_append.mp hsplit with hunit | hrest
      · refine ⟨_, List.mem_cons_self, covers_glue line (h.sublist ?_) hunit⟩
        exact (List.take_sublist _ _).cons_cons t
      · obtain ⟨s, hs, hcover⟩ := ih _ (by rw [List.length_drop, ← hn, List.length_cons]; omega)
          (h.sublist ((List.drop_sublist _ _).trans (List.sublist_cons_self t ts))) hrest rfl
        exact ⟨s, List.mem_cons_of_mem _ hs, hcover⟩

/-- Tokens in order that share a byte are one token. -/
theorem InOrder.eq_of_overlap {ts : List Token} (h : InOrder ts) {s t : Token} (hs : s ∈ ts)
    (ht : t ∈ ts) (hst : s.start < t.stop) (hts : t.start < s.stop) : s = t := by
  rcases Nat.lt_trichotomy s.start t.start with hlt | heq | hlt
  · have := h.stop_le_start hs ht hlt
    omega
  · exact h.eq_of_start_eq hs ht heq
  · have := h.stop_le_start ht hs hlt
    omega

/-! ## The places of the units -/

variable (extent) in
/-- How many tokens behind a place belong to the unit, if one starts there. -/
def reachAt (ts : List Token) (i : Nat) : Nat :=
  match ts.drop i with
  | [] => 0
  | t :: us => min (extent t us) us.length

variable (extent) in
/-- Where the units start, one after the other. -/
def unitStart (ts : List Token) : Nat → Nat
  | 0 => 0
  | n + 1 => unitStart ts n + 1 + reachAt extent ts (unitStart ts n)

variable (extent) in
/-- A unit starts at a place. -/
def StartsUnit (ts : List Token) (i : Nat) : Prop := ∃ n, unitStart extent ts n = i

theorem reachAt_eq {ts us : List Token} {i : Nat} {t : Token} (h : ts.drop i = t :: us) :
    reachAt extent ts i = min (extent t us) us.length := by
  rw [reachAt, h]

theorem startsUnit_zero (ts : List Token) : StartsUnit extent ts 0 := ⟨0, rfl⟩

theorem StartsUnit.next {ts : List Token} {i : Nat} (h : StartsUnit extent ts i) :
    StartsUnit extent ts (i + 1 + reachAt extent ts i) := by
  obtain ⟨n, rfl⟩ := h
  exact ⟨n + 1, rfl⟩

/-- Units do not overlap. -/
theorem StartsUnit.lt {ts : List Token} {i j : Nat} (hi : StartsUnit extent ts i)
    (hj : StartsUnit extent ts j) (h : i < j) : i + reachAt extent ts i < j := by
  obtain ⟨m, rfl⟩ := hi
  obtain ⟨n, rfl⟩ := hj
  have hmono : StrictMono (unitStart extent ts) :=
    strictMono_nat_of_lt_succ fun n => by rw [unitStart]; omega
  have hle : unitStart extent ts (m + 1) ≤ unitStart extent ts n :=
    hmono.monotone (hmono.lt_iff_lt.mp h)
  rw [unitStart] at hle
  omega

/-- Every place belongs to a unit. -/
theorem exists_unit (ts : List Token) (j : Nat) :
    ∃ i, StartsUnit extent ts i ∧ i ≤ j ∧ j ≤ i + reachAt extent ts i := by
  induction j with
  | zero => exact ⟨0, startsUnit_zero ts, by omega, by omega⟩
  | succ j ih =>
    obtain ⟨i, hi, hle, hge⟩ := ih
    by_cases hin : j + 1 ≤ i + reachAt extent ts i
    · exact ⟨i, hi, by omega, hin⟩
    · have hnext : i + 1 + reachAt extent ts i = j + 1 := by omega
      exact ⟨j + 1, hnext ▸ hi.next, by omega, by omega⟩

/-- The tokens of a unit are some of those that the pass is given, in their order. -/
theorem unit_sublist {ts us : List Token} {i : Nat} {t : Token} (h : ts.drop i = t :: us)
    (n : Nat) : (t :: us.take n).Sublist ts := by
  have hdrop := List.drop_sublist i ts
  rw [h] at hdrop
  exact ((List.take_sublist n us).cons_cons t).trans hdrop

theorem drop_unit {ts us : List Token} {i : Nat} {t : Token} (h : ts.drop i = t :: us) :
    ts.drop (i + 1 + reachAt extent ts i) = us.drop (extent t us) := by
  have hus : ts.drop (i + 1) = us := by rw [← List.drop_drop, h, List.drop_one, List.tail_cons]
  rw [reachAt_eq h, ← List.drop_drop, hus]
  by_cases hle : extent t us ≤ us.length
  · rw [Nat.min_eq_left hle]
  · rw [Nat.min_eq_right (by omega), List.drop_of_length_le (Nat.le_refl _),
      List.drop_of_length_le (by omega)]

variable (line) in
/-- From the start of a unit on, a pass goes over the tokens as if they were all. -/
theorem StartsUnit.exists_coalesce_eq {ts : List Token} {i : Nat} (h : StartsUnit extent ts i) :
    ∃ front, coalesce line extent 0 ts = front ++ coalesce line extent 0 (ts.drop i) := by
  obtain ⟨n, rfl⟩ := h
  induction n with
  | zero => exact ⟨[], rfl⟩
  | succ n ih =>
    obtain ⟨front, hfront⟩ := ih
    cases hdrop : ts.drop (unitStart extent ts n) with
    | nil =>
      have hlength := List.drop_eq_nil_iff.mp hdrop
      refine ⟨front, ?_⟩
      rw [hfront, hdrop, unitStart, List.drop_of_length_le (by omega)]
    | cons t us =>
      refine ⟨front ++ [glue line t (us.take (extent t us))], ?_⟩
      rw [hfront, hdrop, coalesce_zero_cons, unitStart, drop_unit hdrop, List.append_assoc]
      rfl

variable (line) in
/-- The token of the unit that starts at a place. -/
theorem StartsUnit.glue_mem {ts us : List Token} {i : Nat} {t : Token}
    (h : StartsUnit extent ts i) (hdrop : ts.drop i = t :: us) :
    glue line t (us.take (extent t us)) ∈ coalesce line extent 0 ts := by
  obtain ⟨front, hfront⟩ := h.exists_coalesce_eq line
  rw [hfront, hdrop, coalesce_zero_cons]
  exact List.mem_append_right _ List.mem_cons_self

/-- The last token of the unit at a place is the one that it reaches. -/
theorem getLast?_unit {ts us : List Token} {i : Nat} {t u : Token} (hdrop : ts.drop i = t :: us)
    (hpos : 0 < reachAt extent ts i) (hu : ts[i + reachAt extent ts i]? = some u) :
    (us.take (extent t us)).getLast? = some u := by
  obtain ⟨n, hn⟩ : ∃ n, reachAt extent ts i = n + 1 := ⟨reachAt extent ts i - 1, by omega⟩
  rw [hn, ← List.getElem?_drop, hdrop, List.getElem?_cons_succ] at hu
  rw [List.take_eq_take_min, ← reachAt_eq hdrop, hn, List.getLast?_take, Nat.add_sub_cancel, hu]
  rfl

theorem glue_stop_eq {ts us : List Token} {i : Nat} {t u : Token} (hdrop : ts.drop i = t :: us)
    (hu : ts[i + reachAt extent ts i]? = some u) :
    (glue line t (us.take (extent t us))).stop = u.stop := by
  rw [glue_stop]
  by_cases hzero : reachAt extent ts i = 0
  · rw [hzero, Nat.add_zero, ← Nat.add_zero i, ← List.getElem?_drop, hdrop] at hu
    cases hu
    rw [List.take_eq_take_min, ← reachAt_eq hdrop, hzero]
    rfl
  · rw [getLast?_unit hdrop (by omega) hu, Option.getD_some]

/-! ## Tokens that are slices -/

/-- The token is what its line has between its two ends. -/
def Token.At (line : Text) (t : Token) : Prop :=
  ∃ u v, line = u ++ t.value ++ v ∧ t.start = Text.size u ∧ t.stop = Text.size u + Text.size t.value

theorem at_of_mem_tokenize {t : Token} (h : t ∈ tokenize line) : t.At line :=
  exists_eq_append_of_mem_tokenize h

theorem Text.eq_nil_of_size {t : Text} (h : Text.size t = 0) : t = [] := by
  cases t with
  | nil => rfl
  | cons c t =>
    have := c.utf8Size_pos
    rw [Text.size_cons] at h
    omega

/-- Of two texts in front of a line, the longer one starts with the shorter one. -/
theorem Text.exists_eq_append_of_size_le {u v u' v' : Text} (h : u ++ v = u' ++ v')
    (hsize : Text.size u ≤ Text.size u') : ∃ m, u' = u ++ m := by
  rcases List.append_eq_append_iff.mp h with ⟨m, hm, -⟩ | ⟨m, hm, -⟩
  · exact ⟨m, hm⟩
  · have hzero : Text.size m = 0 := by
      rw [hm, Text.size_append] at hsize
      omega
    rw [Text.eq_nil_of_size hzero, List.append_nil] at hm
    exact ⟨[], by rw [hm, List.append_nil]⟩

/-- What a line has from the start of one token to the end of a later one. -/
theorem Token.At.exists_slice_eq {s t : Token} (hs : s.At line) (ht : t.At line)
    (h : s.stop ≤ t.start) : ∃ u m v, line = u ++ (s.value ++ m ++ t.value) ++ v ∧
      s.start = Text.size u ∧ Text.slice s.start t.stop line = s.value ++ m ++ t.value ∧
      t.stop = Text.size u + Text.size (s.value ++ m ++ t.value) := by
  obtain ⟨u, v, hline, hstart, hstop⟩ := hs
  obtain ⟨u', v', hline', hstart', hstop'⟩ := ht
  obtain ⟨m, hm⟩ : ∃ m, u' = u ++ s.value ++ m := by
    have hsame : u ++ s.value ++ v = u' ++ (t.value ++ v') := by
      rw [← hline, hline', List.append_assoc]
    refine Text.exists_eq_append_of_size_le hsame ?_
    rw [Text.size_append]
    omega
  have hsplit : line = u ++ (s.value ++ m ++ t.value) ++ v' := by
    rw [hline', hm]
    simp only [List.append_assoc]
  have hend : t.stop = Text.size u + Text.size (s.value ++ m ++ t.value) := by
    rw [hstop', hm]
    simp only [Text.size_append]
    omega
  refine ⟨u, m, v', hsplit, hstart, ?_, hend⟩
  rw [hstart, hend]
  conv => lhs; rw [hsplit, List.append_assoc u]
  exact Text.slice_append _ _ _

/-- A unit of slices is a slice. If it has several tokens, its text starts with that of the first
and ends with that of the last. -/
theorem at_glue {t : Token} {more : List Token} (horder : InOrder (t :: more))
    (h : ∀ u ∈ t :: more, u.At line) : (glue line t more).At line ∧
      ∀ u ∈ more.getLast?, ∃ m, (glue line t more).value = t.value ++ m ++ u.value := by
  rcases List.eq_nil_or_concat more with rfl | ⟨front, last, rfl⟩
  · exact ⟨h t List.mem_cons_self, nofun⟩
  rw [List.concat_eq_append] at horder h ⊢
  have hlast : last ∈ front ++ [last] := List.mem_append_right _ List.mem_cons_self
  have hle := (List.pairwise_cons.mp horder.2).1 last hlast
  obtain ⟨u, m, v, hline, hstart, hslice, hstop⟩ :=
    (h t List.mem_cons_self).exists_slice_eq (h last (List.mem_cons_of_mem _ hlast)) hle
  have hvalue : (glue line t (front ++ [last])).value = t.value ++ m ++ last.value := by
    have hne : (front ++ [last]).isEmpty = false := by simp
    rw [glue, hne, Token.merge, List.getLast?_append, List.getLast?_singleton]
    exact hslice
  refine ⟨⟨u, v, ?_, ?_, ?_⟩, fun w hw => ⟨m, ?_⟩⟩
  · rw [hvalue]
    exact hline
  · rw [glue_start]
    exact hstart
  · rw [hvalue, glue_stop, List.getLast?_append, List.getLast?_singleton]
    exact hstop
  · rw [List.getLast?_append, List.getLast?_singleton, Option.some_or, Option.mem_some_iff] at hw
    rw [hvalue, hw]

theorem at_of_mem_coalesce {ts : List Token} (horder : InOrder ts) (h : ∀ t ∈ ts, t.At line) :
    ∀ t ∈ coalesce line extent 0 ts, t.At line := by
  induction hn : ts.length using Nat.strongRecOn generalizing ts with
  | ind n ih =>
    cases ts with
    | nil => nofun
    | cons t ts =>
      rw [coalesce_zero_cons]
      intro u hu
      rcases List.mem_cons.mp hu with rfl | hu
      · refine (at_glue (horder.sublist ((List.take_sublist _ _).cons_cons t)) ?_).1
        intro v hv
        rcases List.mem_cons.mp hv with rfl | hv
        · exact h _ List.mem_cons_self
        · exact h v (List.mem_cons_of_mem _ (List.mem_of_mem_take hv))
      · refine ih _ (by rw [List.length_drop, ← hn, List.length_cons]; omega)
          (horder.sublist ((List.drop_sublist _ _).trans (List.sublist_cons_self t ts)))
          (fun v hv => h v (List.mem_cons_of_mem _ (List.mem_of_mem_drop hv))) rfl u hu

end CrossShell
