import CrossShell.Proofs.Token.Locality
import Mathlib.Data.List.Pairwise

/-!
# The bytes that tokens cover

The tokens of a line stand one behind the other, and each is the slice of the line between its two
ends. A byte that no token covers is a gap.

* `InOrder`: tokens that do not overlap, none of them empty.
* `inOrder_tokenizeFrom`: reading gives such tokens.
* `Placed.covers`: every byte belongs to a token or to a gap.
-/

namespace CrossShell

/-- Tokens that stand one behind the other, none of them empty. -/
def InOrder (ts : List Token) : Prop :=
  (∀ t ∈ ts, t.start < t.stop) ∧ ts.Pairwise fun s t => s.stop ≤ t.start

theorem InOrder.sublist {ts us : List Token} (h : InOrder ts) (hs : us.Sublist ts) : InOrder us :=
  ⟨fun t ht => h.1 t (hs.subset ht), h.2.sublist hs⟩

theorem InOrder.append {ts us : List Token} (h : InOrder (ts ++ us)) :
    ∀ t ∈ ts, ∀ u ∈ us, t.stop ≤ u.start :=
  (List.pairwise_append.mp h.2).2.2

/-- Of two tokens in order, the one that starts further left ends before the other starts. -/
theorem InOrder.stop_le_start {ts : List Token} (h : InOrder ts) {s t : Token} (hs : s ∈ ts)
    (ht : t ∈ ts) (hlt : s.start < t.start) : s.stop ≤ t.start := by
  obtain ⟨A, C, rfl⟩ := List.append_of_mem hs
  rcases List.mem_append.mp ht with ht | ht
  · have hle := h.append t ht s List.mem_cons_self
    have := h.1 t (List.mem_append_left _ ht)
    omega
  · rcases List.mem_cons.mp ht with rfl | ht
    · omega
    · have hord : InOrder (s :: C) := h.sublist (List.sublist_append_right A (s :: C))
      exact (List.pairwise_cons.mp hord.2).1 t ht

/-- A token in order is known by where it starts. -/
theorem InOrder.eq_of_start_eq {ts : List Token} (h : InOrder ts) {s t : Token} (hs : s ∈ ts)
    (ht : t ∈ ts) (heq : s.start = t.start) : s = t := by
  obtain ⟨A, C, rfl⟩ := List.append_of_mem hs
  rcases List.mem_append.mp ht with ht | ht
  · have hle := h.append t ht s List.mem_cons_self
    have := h.1 t (List.mem_append_left _ ht)
    omega
  · rcases List.mem_cons.mp ht with rfl | ht
    · rfl
    · have hord : InOrder (s :: C) := h.sublist (List.sublist_append_right A (s :: C))
      have hle := (List.pairwise_cons.mp hord.2).1 t ht
      have := hord.1 s List.mem_cons_self
      omega

/-! ## Reading gives tokens in order -/

theorem start_lt_stop_of_mem_tokenizeFrom {pos skip : Nat} {w : Text} :
    ∀ t ∈ tokenizeFrom pos skip w, t.start < t.stop := by
  induction w generalizing pos skip with
  | nil => simp [tokenizeFrom]
  | cons c cs ih =>
    intro t ht
    cases skip with
    | succ skip => exact ih t ht
    | zero =>
      rw [tokenizeFrom] at ht
      split at ht
      · exact ih t ht
      · rcases List.mem_cons.mp ht with rfl | ht
        · obtain ⟨n, hn⟩ := Nat.exists_eq_succ_of_ne_zero (Nat.ne_of_gt (lexemeLength_pos c cs))
          have hc := c.utf8Size_pos
          rw [lexeme_stop, hn, List.take_succ_cons, Text.size_cons]
          show pos < pos + (c.utf8Size + _)
          omega
        · exact ih t ht

/-- Placed tokens stand behind each other, and within their text. -/
theorem Placed.bounds {pos : Nat} {a : Text} {cuts : List (Token × Text)} (h : Placed pos a cuts) :
    (∀ t ∈ cuts.map Prod.fst, pos + Text.size a ≤ t.start ∧
        t.stop ≤ pos + Text.size (ofCuts a cuts)) ∧
      (cuts.map Prod.fst).Pairwise fun s t => s.stop ≤ t.start := by
  induction cuts generalizing pos a with
  | nil => exact ⟨nofun, .nil⟩
  | cons cut cuts ih =>
    obtain ⟨t, b⟩ := cut
    obtain ⟨hstart, hstop, hrest⟩ := h
    obtain ⟨hbounds, hpairs⟩ := ih hrest
    refine ⟨?_, ?_⟩
    · intro s hs
      rw [ofCuts_cons, Text.size_append, Text.size_append]
      rcases List.mem_cons.mp hs with rfl | hs
      · exact ⟨by omega, by omega⟩
      · have := hbounds s hs
        exact ⟨by omega, by omega⟩
    · refine List.pairwise_cons.mpr ⟨fun s hs => ?_, hpairs⟩
      have := (hbounds s hs).1
      show t.stop ≤ s.start
      omega

/-- The tokens of a text that starts at byte `pos` stand within it. -/
theorem bounds_of_mem_tokenizeFrom {pos : Nat} {text : Text} {t : Token}
    (h : t ∈ tokenizeFrom pos 0 text) : pos ≤ t.start ∧ t.stop ≤ pos + Text.size text := by
  obtain ⟨a, cuts, rfl, hplaced, htokens, -⟩ := exists_placed_tokenizeFrom pos text
  rw [← htokens] at h
  have := hplaced.bounds.1 t h
  omega

theorem inOrder_tokenizeFrom (pos : Nat) (text : Text) : InOrder (tokenizeFrom pos 0 text) := by
  refine ⟨start_lt_stop_of_mem_tokenizeFrom, ?_⟩
  obtain ⟨a, cuts, rfl, hplaced, htokens, -⟩ := exists_placed_tokenizeFrom pos text
  rw [← htokens]
  exact hplaced.bounds.2

/-! ## Every byte is covered -/

theorem utf8Size_of_isGap {c : Char} (h : isGap c = true) : c.utf8Size = 1 := by
  rcases isGap_iff.mp h with rfl | rfl | rfl | rfl | rfl <;> rfl

/-- Each byte of a gap is one of its characters. -/
theorem exists_isGap_at {a : Text} (ha : a.all isGap = true) {b : Nat} (hb : b < Text.size a) :
    ∃ u c v, a = u ++ c :: v ∧ Text.size u = b ∧ isGap c = true := by
  induction a generalizing b with
  | nil => simp at hb
  | cons c a ih =>
    rw [List.all_cons, Bool.and_eq_true] at ha
    have hsize := utf8Size_of_isGap ha.1
    by_cases hzero : b = 0
    · exact ⟨[], c, a, rfl, hzero.symm, ha.1⟩
    · obtain ⟨u, d, v, rfl, hu, hd⟩ := ih ha.2 (b := b - 1) (by rw [Text.size_cons] at hb; omega)
      exact ⟨c :: u, d, v, rfl, by rw [Text.size_cons]; omega, hd⟩

/-- Every byte of a text belongs to one of its tokens, or is a gap. -/
theorem Placed.covers {pos : Nat} {a : Text} {cuts : List (Token × Text)} (h : Placed pos a cuts)
    (ha : a.all isGap = true) (hcuts : ∀ cut ∈ cuts, cut.2.all isGap = true) {b : Nat}
    (hb : b < Text.size (ofCuts a cuts)) :
    (∃ t ∈ cuts.map Prod.fst, t.start ≤ pos + b ∧ pos + b < t.stop) ∨
      ∃ u c v, ofCuts a cuts = u ++ c :: v ∧ Text.size u = b ∧ isGap c = true := by
  induction cuts generalizing pos a b with
  | nil =>
    rw [ofCuts_nil] at hb ⊢
    exact .inr (exists_isGap_at ha hb)
  | cons cut cuts ih =>
    obtain ⟨t, g⟩ := cut
    obtain ⟨hstart, hstop, hrest⟩ := h
    rw [ofCuts_cons, Text.size_append, Text.size_append] at hb
    by_cases hgap : b < Text.size a
    · obtain ⟨u, c, v, rfl, hu, hc⟩ := exists_isGap_at ha hgap
      exact .inr ⟨u, c, v ++ t.value ++ ofCuts g cuts, by simp, hu, hc⟩
    by_cases htoken : b < Text.size a + Text.size t.value
    · exact .inl ⟨t, List.mem_cons_self, by omega, by omega⟩
    -- Behind the token, the byte counts from the end of the token.
    obtain ⟨s, hs, hle, hlt⟩ | ⟨u, c, v, hsplit, hu, hc⟩ :=
      ih hrest (hcuts _ List.mem_cons_self) (fun cut hcut => hcuts cut (List.mem_cons_of_mem _ hcut))
        (b := b - (Text.size a + Text.size t.value)) (by omega)
    · exact .inl ⟨s, List.mem_cons_of_mem _ hs, by omega, by omega⟩
    · refine .inr ⟨a ++ t.value ++ u, c, v, ?_, ?_, hc⟩
      · rw [ofCuts_cons, hsplit]
        simp only [List.append_assoc]
      · rw [Text.size_append, Text.size_append]
        omega

/-! ## A token is a slice -/

/-- Texts that are cut behind the same number of bytes are cut alike. -/
theorem append_inj_of_size {u u' v v' : Text} (h : u ++ v = u' ++ v')
    (hsize : Text.size u = Text.size u') : u = u' ∧ v = v' := by
  have hu : u = u' := by
    rw [← Text.takeBytes_append u v, h, hsize, Text.takeBytes_append]
  subst hu
  exact ⟨rfl, List.append_cancel_left h⟩

/-- A token covers a piece of its line. -/
theorem exists_eq_append_of_mem_tokenize {line : Text} {t : Token} (h : t ∈ tokenize line) :
    ∃ u v, line = u ++ t.value ++ v ∧ t.start = Text.size u ∧
      t.stop = Text.size u + Text.size t.value := by
  obtain ⟨a, cuts, rfl, hplaced, htokens, -⟩ := exists_placed_tokenizeFrom 0 line
  rw [tokenize, ← htokens] at h
  obtain ⟨cut, hcut, rfl⟩ := List.mem_map.mp h
  obtain ⟨u, v, hsplit, hstart, hstop⟩ := hplaced.inside cut hcut
  exact ⟨u, v, hsplit, by omega, by omega⟩

end CrossShell
