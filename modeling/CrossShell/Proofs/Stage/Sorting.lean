import CrossShell.Proofs.Stage.Layout

/-!
# Sorting the tokens of words and redirections

The command word of a stage and the words behind it are sorted out of the tagged tokens. A
redirection whose tokens do not have the expected shape, or whose target is a token of its own
before the command word, puts one of its tokens among the words or in the place of the command.

* `Redirect.contained`, `Redirect.regular`: the redirections that are recognised before and behind
  the command word.
* `sortTokens_of_regular`, `exists_word_of_irregular`: behind the command word.
* `exists_tagRolesFrom_eq`, `exists_command_of_not_contained`: before it.
-/

namespace CrossShell

/-! ## Tagging -/

/-- A token behind the command word, with its role. -/
def tagBehind (t : Token) : TaggedToken := ⟨t, (t.role false).1⟩

/-- Behind the command word, without connectors, no other command word comes. -/
theorem tagRolesFrom_false {ts : List Token} (h : ∀ t ∈ ts, t.isConnector = false) :
    tagRolesFrom false ts = ts.map tagBehind := by
  induction ts with
  | nil => rfl
  | cons t ts ih =>
    have hdue : (t.role false).2 = false := by
      unfold Token.role
      rw [h t List.mem_cons_self]
      simp only [Bool.false_eq_true, if_false]
      split
      · rfl
      · split <;> rfl
    rw [tagRolesFrom, hdue, ih fun u hu => h u (List.mem_cons_of_mem _ hu)]
    rfl

theorem role_of_isRedirect {t : Token} (hc : t.isConnector = false) (hr : t.isRedirect = true) :
    t.role true = (.argument, true) := by
  simp [Token.role, hc, hr]

/-- Where a command word is due, a token that is no redirection is the command word. -/
theorem role_of_not_isRedirect {t : Token} (hc : t.isConnector = false)
    (hr : t.isRedirect = false) : t.role true = (.command, false) := by
  simp [Token.role, hc, hr]

/-! ## Sorting the tokens of an item -/

namespace Invocation

/-- Words stay words. -/
theorem sortTokens_words {ts : List Token} (h : ∀ t ∈ ts, t.isRedirect = false)
    (rest : List TaggedToken) : sortTokens true false (ts.map tagBehind ++ rest) =
      ⟨ts.map tagBehind ++ (sortTokens true false rest).words,
        (sortTokens true false rest).redirects⟩ := by
  induction ts with
  | nil => rfl
  | cons t ts ih =>
    have ht : (tagBehind t).token.isRedirect = false := h t List.mem_cons_self
    rw [List.map_cons, List.cons_append, sortTokens, ht,
      ih fun u hu => h u (List.mem_cons_of_mem _ hu)]
    rfl

end Invocation

namespace Redirect

variable (r : Redirect)

/-- Whether the redirection is one token with the shape of a redirection. -/
def contained : Bool := r.joined && r.regular

theorem gap_eq_nil_of_joined {r : Redirect} (h : r.joined = true) : r.gap = [] := by
  simp only [joined, Bool.and_eq_true, List.isEmpty_iff] at h
  exact h.1

theorem isRedirect_text (hj : r.joined = true) (pos : Nat) :
    ((bare r.text 0).shift pos).isRedirect = r.regular :=
  r.isRedirection_text (gap_eq_nil_of_joined hj)

theorem isRedirect_head (pos : Nat) : ((bare r.head 0).shift pos).isRedirect = true :=
  r.isRedirection_head

theorem isRedirect_targetToken (pos : Nat) : (r.targetToken.shift pos).isRedirect = false :=
  isRedirection_plain r.isPlain_of_mem_target

theorem isConnector_shift (pos : Nat) {t : Token} (h : t ∈ fused r.text) :
    (t.shift pos).isConnector = false :=
  r.isConnector_of_mem_fused t h

/-- An `&` behind its operator leaves no regular redirection open. -/
theorem joined_of_regular {r : Redirect} (hr : r.regular = true) (hd : r.duplicates = true) :
    r.joined = true := by
  simp only [regular, hd, Bool.not_true, Bool.false_or, Bool.and_eq_true] at hr
  simp [joined, hd, hr.1]

/-- A regular redirection behind the command word goes to the redirections, target included. -/
theorem sortTokens_regular {r : Redirect} (hr : r.regular = true) (pos : Nat)
    (rest : List TaggedToken) :
    Invocation.sortTokens true false ((tokensAt (pos, .redirect r)).map tagBehind ++ rest) =
      ⟨(Invocation.sortTokens true false rest).words,
        (tokensAt (pos, .redirect r)).map Token.value ++
          (Invocation.sortTokens true false rest).redirects⟩ := by
  have htext : Invocation.needsTarget (tagBehind ((bare r.text 0).shift pos)).value = false :=
    r.needsTarget_text
  have hhead : Invocation.needsTarget (tagBehind ((bare r.head 0).shift pos)).value =
      !r.duplicates := r.needsTarget_head
  simp only [tokensAt, StageItem.text, r.fused_text]
  cases hj : r.joined with
  | true =>
    have hredirect : (tagBehind ((bare r.text 0).shift pos)).token.isRedirect = true :=
      (r.isRedirect_text hj pos).trans hr
    simp only [if_true, List.map_cons, List.map_nil, List.cons_append, List.nil_append,
      Invocation.sortTokens, hredirect, htext]
    rfl
  | false =>
    have hd : r.duplicates = false := by
      cases hd : r.duplicates with
      | false => rfl
      | true => exact absurd (joined_of_regular hr hd) (by simp [hj])
    have hredirect : (tagBehind ((bare r.head 0).shift pos)).token.isRedirect = true :=
      r.isRedirect_head pos
    simp only [Bool.false_eq_true, if_false, List.map_cons, List.map_nil, List.cons_append,
      List.nil_append, Invocation.sortTokens, hredirect, hhead, hd, Bool.not_false, if_true]
    rfl

/-- Behind the command word, any other redirection leaves one of its tokens among the words. -/
theorem exists_word_of_irregular {r : Redirect} (hr : r.regular = false) (pos : Nat)
    (rest : List TaggedToken) : ∃ t ∈ fused r.text, tagBehind (t.shift pos) ∈
      (Invocation.sortTokens true false
        ((tokensAt (pos, .redirect r)).map tagBehind ++ rest)).words := by
  have hd : r.duplicates = true := by
    cases hd : r.duplicates with
    | true => rfl
    | false => simp [regular, hd] at hr
  simp only [tokensAt, StageItem.text, r.fused_text]
  cases hj : r.joined with
  | true =>
    have hredirect : (tagBehind ((bare r.text 0).shift pos)).token.isRedirect = false :=
      (r.isRedirect_text hj pos).trans hr
    refine ⟨bare r.text 0, by simp, ?_⟩
    simp [Invocation.sortTokens, hredirect]
  | false =>
    have hhead : Invocation.needsTarget (tagBehind ((bare r.head 0).shift pos)).value = false := by
      have hneeds : Invocation.needsTarget r.head = false := by rw [r.needsTarget_head, hd]; rfl
      exact hneeds
    have hredirect : (tagBehind ((bare r.head 0).shift pos)).token.isRedirect = true :=
      r.isRedirect_head pos
    have htarget : (tagBehind (r.targetToken.shift pos)).token.isRedirect = false :=
      r.isRedirect_targetToken pos
    refine ⟨r.targetToken, by simp, ?_⟩
    simp [Invocation.sortTokens, hredirect, hhead, htarget]

/-- Before the command word, a contained redirection is passed over. -/
theorem tagRolesFrom_contained {r : Redirect} (hr : r.contained = true) (pos : Nat)
    (rest : List Token) : tagRolesFrom true (tokensAt (pos, .redirect r) ++ rest) =
      ⟨(bare r.text 0).shift pos, .argument⟩ :: tagRolesFrom true rest := by
  simp only [contained, Bool.and_eq_true] at hr
  obtain ⟨hj, hregular⟩ := hr
  have hredirect : ((bare r.text 0).shift pos).isRedirect = true :=
    (r.isRedirect_text hj pos).trans hregular
  have hmem : bare r.text 0 ∈ fused r.text := by rw [r.fused_text, hj]; simp
  have htokens : tokensAt (pos, .redirect r) = [(bare r.text 0).shift pos] := by
    simp [tokensAt, StageItem.text, r.fused_text, hj]
  rw [htokens, List.cons_append, List.nil_append, tagRolesFrom,
    role_of_isRedirect (r.isConnector_shift pos hmem) hredirect]

/-- Before the command word, any other redirection has a token in its place. -/
theorem exists_command_of_not_contained {r : Redirect} (hr : r.contained = false) (pos : Nat)
    (rest : List Token) : ∃ t ∈ fused r.text,
      (tagRolesFrom true (tokensAt (pos, .redirect r) ++ rest)).find? (·.role == .command) =
        some ⟨t.shift pos, .command⟩ := by
  cases hj : r.joined with
  | true =>
    have hregular : r.regular = false := by simpa [contained, hj] using hr
    have hmem : bare r.text 0 ∈ fused r.text := by rw [r.fused_text, hj]; simp
    have htokens : tokensAt (pos, .redirect r) = [(bare r.text 0).shift pos] := by
      simp [tokensAt, StageItem.text, r.fused_text, hj]
    have hrole := role_of_not_isRedirect (r.isConnector_shift pos hmem)
      ((r.isRedirect_text hj pos).trans hregular)
    refine ⟨_, hmem, ?_⟩
    rw [htokens, List.cons_append, tagRolesFrom, hrole]
    rfl
  | false =>
    have hhead : bare r.head 0 ∈ fused r.text := by rw [r.fused_text, hj]; simp
    have htarget : r.targetToken ∈ fused r.text := by rw [r.fused_text, hj]; simp
    have htokens : tokensAt (pos, .redirect r) =
        [(bare r.head 0).shift pos, r.targetToken.shift pos] := by
      simp [tokensAt, StageItem.text, r.fused_text, hj]
    have hfirst := role_of_isRedirect (r.isConnector_shift pos hhead) (r.isRedirect_head pos)
    have hsecond := role_of_not_isRedirect (r.isConnector_shift pos htarget)
      (r.isRedirect_targetToken pos)
    refine ⟨_, htarget, ?_⟩
    rw [htokens, List.cons_append, List.cons_append, tagRolesFrom, hfirst, tagRolesFrom, hsecond]
    rfl

end Redirect

/-! ## Sorting the items -/

/-- The tokens of the words among some items. -/
def wordTokens (ps : List (Nat × StageItem)) : List Token :=
  ps.flatMap fun p => match p.2 with
    | .word _ => tokensAt p
    | .redirect _ => []

/-- The tokens of the redirections among some items. -/
def redirectTokens (ps : List (Nat × StageItem)) : List Token :=
  ps.flatMap fun p => match p.2 with
    | .word _ => []
    | .redirect _ => tokensAt p

theorem isRedirect_of_mem_tokensAt {pos : Nat} {w : StageWord} :
    ∀ t ∈ tokensAt (pos, .word w), t.isRedirect = false := by
  intro t ht
  obtain ⟨u, hu, rfl⟩ := List.mem_map.mp ht
  exact (w.inert u hu).1

theorem isConnector_of_mem_tokensAt {p : Nat × StageItem} :
    ∀ t ∈ tokensAt p, t.isConnector = false := by
  intro t ht
  obtain ⟨u, hu, rfl⟩ := List.mem_map.mp ht
  exact p.2.isConnector_of_mem_fused u hu

/-- Whether the item is sorted as it was written, behind the command word. -/
def StageItem.regular : StageItem → Bool
  | word _ => true
  | redirect r => r.regular

/-- Behind the command word, regular items are sorted as they were written. -/
theorem sortTokens_of_regular {ps : List (Nat × StageItem)} (h : ∀ p ∈ ps, p.2.regular = true)
    (rest : List TaggedToken) :
    Invocation.sortTokens true false ((ps.flatMap tokensAt).map tagBehind ++ rest) =
      ⟨(wordTokens ps).map tagBehind ++ (Invocation.sortTokens true false rest).words,
        (redirectTokens ps).map Token.value ++
          (Invocation.sortTokens true false rest).redirects⟩ := by
  induction ps with
  | nil => rfl
  | cons p ps ih =>
    obtain ⟨pos, i⟩ := p
    have hi : i.regular = true := h (pos, i) List.mem_cons_self
    have hrest := ih fun p hp => h p (List.mem_cons_of_mem _ hp)
    rw [List.flatMap_cons, List.map_append, List.append_assoc]
    cases i with
    | word w =>
      rw [Invocation.sortTokens_words isRedirect_of_mem_tokensAt, hrest]
      simp [wordTokens, redirectTokens]
    | redirect r =>
      rw [Redirect.sortTokens_regular hi, hrest]
      simp [wordTokens, redirectTokens]

/-- The first of some elements that fails a test. -/
theorem exists_first_of_false {α : Type} {test : α → Bool} {l : List α}
    (h : ∃ x ∈ l, test x = false) :
    ∃ a x b, l = a ++ x :: b ∧ (∀ y ∈ a, test y = true) ∧ test x = false := by
  obtain ⟨x, hx, hfalse⟩ := h
  cases hfind : l.find? (fun y => !test y) with
  | none =>
    have hall := List.find?_eq_none.mp hfind x hx
    simp [hfalse] at hall
  | some y =>
    obtain ⟨hy, a, b, rfl, ha⟩ := List.find?_eq_some_iff_append.mp hfind
    exact ⟨a, y, b, rfl, by simpa using ha, by simpa using hy⟩

/-- If an item is not regular, then some token of a redirection is among the words. -/
theorem exists_word_of_irregular {ps : List (Nat × StageItem)} (h : ∃ p ∈ ps, p.2.regular = false) :
    ∃ pos r t, (pos, StageItem.redirect r) ∈ ps ∧ t ∈ fused r.text ∧ tagBehind (t.shift pos) ∈
      (Invocation.sortTokens true false ((ps.flatMap tokensAt).map tagBehind)).words := by
  obtain ⟨before, ⟨pos, i⟩, rest, rfl, hbefore, hi⟩ := exists_first_of_false h
  cases i with
  | word w => cases hi
  | redirect r =>
    obtain ⟨t, ht, hword⟩ := Redirect.exists_word_of_irregular hi pos
      ((rest.flatMap tokensAt).map tagBehind)
    refine ⟨pos, r, t, by simp, ht, ?_⟩
    rw [List.flatMap_append, List.map_append, List.flatMap_cons, List.map_append,
      sortTokens_of_regular hbefore]
    exact List.mem_append_right _ hword

/-! ## Before the command word -/

namespace Invocation

/-- Redirections that need no other token are sorted out and leave nothing open. -/
theorem sortTokens_front {F : List TaggedToken}
    (h : ∀ t ∈ F, t.token.isRedirect = true ∧ needsTarget t.value = false) :
    sortTokens false false F = ⟨[], F.map TaggedToken.value⟩ ∧ leavesPending false F = false := by
  induction F with
  | nil => exact ⟨rfl, rfl⟩
  | cons t F ih =>
    obtain ⟨hredirect, hneeds⟩ := h t List.mem_cons_self
    obtain ⟨hsort, hpending⟩ := ih fun u hu => h u (List.mem_cons_of_mem _ hu)
    refine ⟨?_, ?_⟩
    · rw [sortTokens, hredirect, hneeds, hsort]
      rfl
    · rw [leavesPending, hredirect, hneeds]
      exact hpending

/-- The invocation of a command word with redirections in front. -/
theorem ofTagged?_append {F B : List TaggedToken} {c : TaggedToken} (stage : Text)
    (hF : ∀ t ∈ F, t.role = .argument ∧ t.token.isRedirect = true ∧ needsTarget t.value = false)
    (hc : c.role = .command) : ofTagged? stage (F ++ c :: B) =
      some ⟨c.value, stage, (sortTokens true false B).words,
        F.map TaggedToken.value ++ (sortTokens true false B).redirects⟩ := by
  have hfront : ∀ t ∈ F, (t.role != .command) = true := by
    intro t ht
    rw [(hF t ht).1]
    rfl
  have hstop : (c.role != .command) = false := by
    rw [hc]
    rfl
  obtain ⟨hsort, hpending⟩ := sortTokens_front fun t ht => (hF t ht).2
  have htake : (F ++ c :: B).takeWhile (·.role != .command) = F := by
    rw [List.takeWhile_append_of_pos hfront, List.takeWhile_cons_of_neg (by simp [hstop]),
      List.append_nil]
  have hdrop : (F ++ c :: B).dropWhile (·.role != .command) = c :: B := by
    rw [List.dropWhile_append_of_pos hfront, List.dropWhile_cons_of_neg (by simp [hstop])]
  simp only [ofTagged?, htake, hdrop, hsort, hpending]

end Invocation

theorem find?_command_append {F : List TaggedToken} (h : ∀ t ∈ F, t.role = .argument)
    (rest : List TaggedToken) :
    (F ++ rest).find? (·.role == .command) = rest.find? (·.role == .command) := by
  have hnone : F.find? (·.role == .command) = none := by
    refine List.find?_eq_none.mpr fun t ht => ?_
    rw [h t ht]
    simp
  rw [List.find?_append, hnone, Option.none_or]

/-- Contained redirections before the command word are passed over. -/
theorem exists_tagRolesFrom_eq {ps : List (Nat × StageItem)}
    (h : ∀ p ∈ ps, ∃ r, p.2 = .redirect r ∧ r.contained = true) (rest : List Token) :
    ∃ F, tagRolesFrom true (ps.flatMap tokensAt ++ rest) = F ++ tagRolesFrom true rest ∧
      F.map TaggedToken.value = (redirectTokens ps).map Token.value ∧
      ∀ t ∈ F, t.role = .argument ∧ t.token.isRedirect = true ∧
        Invocation.needsTarget t.value = false := by
  induction ps with
  | nil => exact ⟨[], rfl, rfl, by simp⟩
  | cons p ps ih =>
    obtain ⟨pos, i⟩ := p
    obtain ⟨r, hi, hr⟩ := h (pos, i) List.mem_cons_self
    obtain ⟨F, htags, hvalues, hF⟩ := ih fun q hq => h q (List.mem_cons_of_mem _ hq)
    obtain rfl : i = .redirect r := hi
    obtain ⟨hj, hregular⟩ : r.joined = true ∧ r.regular = true := by
      simpa [Redirect.contained] using hr
    refine ⟨⟨(bare r.text 0).shift pos, .argument⟩ :: F, ?_, ?_, ?_⟩
    · rw [List.flatMap_cons, List.append_assoc, Redirect.tagRolesFrom_contained hr, htags]
      rfl
    · have htokens : redirectTokens ((pos, .redirect r) :: ps) =
          (bare r.text 0).shift pos :: redirectTokens ps := by
        simp [redirectTokens, tokensAt, StageItem.text, r.fused_text, hj]
      rw [htokens, List.map_cons, List.map_cons, hvalues]
      rfl
    · intro t ht
      rcases List.mem_cons.mp ht with rfl | ht
      · exact ⟨rfl, (r.isRedirect_text hj pos).trans hregular, r.needsTarget_text⟩
      · exact hF t ht

/-- If one of them is not contained, then one of its tokens is the command word. -/
theorem exists_command_of_not_contained {ps : List (Nat × StageItem)}
    (hps : ∀ p ∈ ps, ∃ r, p.2 = .redirect r)
    (h : ∃ p ∈ ps, ∃ r, p.2 = .redirect r ∧ r.contained = false) (rest : List Token) :
    ∃ pos r t, (pos, StageItem.redirect r) ∈ ps ∧ t ∈ fused r.text ∧
      (tagRolesFrom true (ps.flatMap tokensAt ++ rest)).find? (·.role == .command) =
        some ⟨t.shift pos, .command⟩ := by
  let test : Nat × StageItem → Bool := fun p => match p.2 with
    | .word _ => true
    | .redirect r => r.contained
  obtain ⟨before, ⟨pos, i⟩, behind, rfl, hbefore, hi⟩ : ∃ a x b, ps = a ++ x :: b ∧
      (∀ y ∈ a, test y = true) ∧ test x = false := by
    obtain ⟨p, hp, r, hr, hcontained⟩ := h
    exact exists_first_of_false ⟨p, hp, by simp [test, hr, hcontained]⟩
  cases i with
  | word w => cases hi
  | redirect r =>
    have hfront : ∀ p ∈ before, ∃ r, p.2 = .redirect r ∧ r.contained = true := by
      intro p hp
      obtain ⟨r, hr⟩ := hps p (List.mem_append_left _ hp)
      exact ⟨r, hr, by simpa [test, hr] using hbefore p hp⟩
    obtain ⟨F, htags, -, hF⟩ := exists_tagRolesFrom_eq hfront
      (tokensAt (pos, .redirect r) ++ (behind.flatMap tokensAt ++ rest))
    obtain ⟨t, ht, hfind⟩ := Redirect.exists_command_of_not_contained hi pos
      (behind.flatMap tokensAt ++ rest)
    refine ⟨pos, r, t, by simp, ht, ?_⟩
    rw [List.flatMap_append, List.flatMap_cons, List.append_assoc, List.append_assoc, htags,
      find?_command_append fun t ht => (hF t ht).1, hfind]

end CrossShell
