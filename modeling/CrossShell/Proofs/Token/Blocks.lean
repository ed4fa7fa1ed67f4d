import CrossShell.Proofs.Token.Locality

/-!
# Fusing the tokens of separate words

A text whose groups are closed is fused as if it stood alone, with a gap behind it and mostly also
with a redirection directly behind it.

* `fused`: the tokens of a text, read and fused.
* `Closed`: a word behind the text stays a token of its own.
* `fused_append`: the tokens of a closed text and of what follows, one after the other.
-/

namespace CrossShell

/-! ## One pass -/

/-- A word behind a gap touches no token of the text. -/
theorem Token.Inside.touches_marker {w : Text} {t : Token} (h : t.Inside w) :
    ∀ s ∈ [marker (Text.size w + 1)].head?, ¬t.touches s = true := by
  intro s hs htouch
  obtain rfl : marker (Text.size w + 1) = s := Option.some.inj hs
  have hmeet : t.stop = Text.size w + 1 := beq_iff_eq.mp htouch
  have hstop := h.2
  omega

theorem parted_marker {w : Text} {T : List Token} (h : ∀ t ∈ T, t.Inside w) :
    Parted T [marker (Text.size w + 1)] :=
  fun t ht s hs htouch => absurd htouch ((h t ht).touches_marker s hs)

theorem Fusion.apply_singleton (pass : Fusion) (line : Text) (t : Token) :
    pass.apply line [t] = [t] := by
  simp [apply, coalesce]

/-- A pass over the tokens of a text and what is parted from them. -/
theorem Fusion.apply_append (pass : Fusion) {w : Text} {T S : List Token}
    (hT : ∀ t ∈ T, t.Inside w) (hS : Parted T S)
    (hf : Fits pass.extent (marker (Text.size w + 1)) 0 T)
    (hfree : ∀ t ∈ pass.apply w T, ∀ s ∈ S.head?, t.touches s = true → pass.Free t) (post : Text) :
    pass.apply (w ++ post) (T ++ S) = pass.apply w T ++ pass.apply (w ++ post) S := by
  have hcontext : pass.apply (w ++ post) T = pass.apply w T := by
    simpa [Fusion.apply] using coalesce_shift pass hT [] post 0
  rw [← hcontext] at hfree ⊢
  exact coalesce_append pass.isLocal_extent _ (parted_marker hT) hS hf hfree

/-- A pass keeps the place of the first token. -/
theorem Fusion.head?_apply {pass : Fusion} {line : Text} {S : List Token} {s : Token}
    (h : s ∈ (pass.apply line S).head?) : ∃ s₀ ∈ S.head?, s.start = s₀.start ∧
      (pass.extent s₀ S.tail = 0 → s = s₀) := by
  cases S with
  | nil => cases h
  | cons s₀ S =>
    refine ⟨s₀, rfl, ?_⟩
    obtain rfl := Option.some.inj h
    refine ⟨by split <;> rfl, fun hzero => ?_⟩
    rw [List.tail_cons] at hzero
    rw [hzero]
    rfl

/-- A pass that leaves a redirection operator at the front alone. -/
def Fusion.KeepsRedirects (pass : Fusion) : Prop :=
  ∀ (s : Token) (ts : List Token), s.isRedirectOperator = true → pass.extent s ts = 0

/-- Such a pass keeps tokens parted. -/
theorem Parted.apply {pass : Fusion} (hk : pass.KeepsRedirects) {T S : List Token} (h : Parted T S)
    (line line' : Text) : Parted (pass.apply line T) (pass.apply line' S) := by
  intro t ht s hs htouch
  obtain ⟨-, u, hu, hstop⟩ := exists_of_mem_coalesce ht
  obtain ⟨s₀, hs₀, hstart, hkeep⟩ := Fusion.head?_apply hs
  have hmeet : u.touches s₀ = true := by rwa [Token.touches, hstop, ← hstart]
  have hredirect := h u hu s₀ hs₀ hmeet
  rw [hkeep (hk s₀ _ hredirect)]
  exact hredirect

/-! ## All passes -/

/-- Some passes, in order. -/
def fuseWith (passes : List Fusion) (line : Text) (ts : List Token) : List Token :=
  passes.foldl (fun ts pass => pass.apply line ts) ts

theorem fuseWith_cons (pass : Fusion) (passes : List Fusion) (line : Text) (ts : List Token) :
    fuseWith (pass :: passes) line ts = fuseWith passes line (pass.apply line ts) := rfl

theorem fuseWith_singleton (passes : List Fusion) (line : Text) (t : Token) :
    fuseWith passes line [t] = [t] := by
  induction passes with
  | nil => rfl
  | cons pass passes ih => rw [fuseWith_cons, pass.apply_singleton, ih]

/-- They form tokens that start and stop where tokens did. -/
theorem exists_of_mem_fuseWith {line : Text} {passes : List Fusion} {ts : List Token} {t : Token}
    (h : t ∈ fuseWith passes line ts) :
    (∃ u ∈ ts, u.start = t.start) ∧ ∃ u ∈ ts, u.stop = t.stop := by
  induction passes generalizing ts with
  | nil => exact ⟨⟨t, h, rfl⟩, t, h, rfl⟩
  | cons pass passes ih =>
    obtain ⟨⟨u, hu, hstart⟩, v, hv, hstop⟩ := ih h
    obtain ⟨⟨u', hu', hstart'⟩, -⟩ := exists_of_mem_coalesce hu
    obtain ⟨-, v', hv', hstop'⟩ := exists_of_mem_coalesce hv
    exact ⟨⟨u', hu', hstart'.trans hstart⟩, v', hv', hstop'.trans hstop⟩

theorem Token.Inside.fuseWith {w : Text} (passes : List Fusion) {T : List Token}
    (h : ∀ t ∈ T, t.Inside w) : ∀ t ∈ fuseWith passes w T, t.Inside w := by
  intro t ht
  obtain ⟨⟨u, hu, hstart⟩, v, hv, hstop⟩ := exists_of_mem_fuseWith ht
  exact ⟨hstart ▸ (h u hu).1, hstop ▸ (h v hv).2⟩

/-- No pass, of those that are left, runs into a word behind the tokens of the text. -/
def Closes (w : Text) : List Fusion → List Token → Prop
  | [], _ => True
  | pass :: passes, T =>
    Fits pass.extent (marker (Text.size w + 1)) 0 T ∧ Closes w passes (pass.apply w T)

/-- If a token starts where a word behind the text does, none of the passes ran into the word. -/
theorem closes_of_mem {w post : Text} {passes : List Fusion} {x : Token} {T S : List Token}
    (hT : ∀ t ∈ T, t.Inside w) (hstart : x.start = Text.size w + 1) (hx : x.isOperator = false)
    (hS : ∀ s ∈ S, s.start ≠ x.start)
    (hself : ∀ pass ∈ passes, pass.apply (w ++ post) (x :: S) = x :: S)
    (h : ∃ t ∈ fuseWith passes (w ++ post) (T ++ x :: S), t.start = x.start) :
    Closes w passes T := by
  induction passes generalizing T with
  | nil => trivial
  | cons pass passes ih =>
    rw [fuseWith_cons] at h
    have hlt : ∀ {U : List Token}, (∀ t ∈ U, t.Inside w) → ∀ t ∈ U, t.stop < x.start := by
      intro U hU t ht
      have := (hU t ht).2
      omega
    have hne : ∀ t ∈ T ++ S, t.start ≠ x.start := by
      intro t ht
      rcases List.mem_append.mp ht with ht | ht
      · obtain ⟨u, v, hsplit, hsize⟩ := (hT t ht).1
        rw [hstart, hsplit, Text.size_append, hsize]
        omega
      · exact hS t ht
    have hfits : Fits pass.extent (marker (Text.size w + 1)) 0 T := by
      obtain ⟨t, ht, hsame⟩ := h
      obtain ⟨⟨u, hu, hsame'⟩, -⟩ := exists_of_mem_fuseWith ht
      rw [← hstart]
      exact Fusion.fits_of_mem hx (hlt hT) hne ⟨u, hu, hsame'.trans hsame⟩
    have hT' := Token.Inside.apply pass hT
    refine ⟨hfits, ih hT' (fun p hp => hself p (List.mem_cons_of_mem _ hp)) ?_⟩
    rwa [pass.apply_append hT (parted_of_lt (hlt hT)) hfits, hself pass List.mem_cons_self] at h
    intro t ht s hs htouch
    obtain rfl : x = s := Option.some.inj hs
    have := hlt hT' t ht
    have := beq_iff_eq.mp htouch
    omega

/-- The passes before the one for redirections. -/
def Fusion.groups : List Fusion :=
  [commandSubstitution, braceExpansion, emptyBraces, heredoc, processSubstitution]

/-- Those passes, in order. -/
def fuseGroups (line : Text) (ts : List Token) : List Token := fuseWith Fusion.groups line ts

theorem fuse_eq (line : Text) (ts : List Token) :
    fuse line ts = Fusion.descriptorRedirection.apply line (fuseGroups line ts) := rfl

theorem Closes.append {w : Text} {passes passes' : List Fusion} {T : List Token}
    (h : Closes w (passes ++ passes') T) :
    Closes w passes T ∧ Closes w passes' (fuseWith passes w T) := by
  induction passes generalizing T with
  | nil => exact ⟨trivial, h⟩
  | cons pass passes ih =>
    obtain ⟨hfits, hrest⟩ := h
    obtain ⟨hfirst, hlast⟩ := ih hrest
    exact ⟨⟨hfits, hfirst⟩, hlast⟩

theorem Closes.concat {w : Text} {passes : List Fusion} {pass : Fusion} {T : List Token}
    (h : Closes w passes T)
    (hfits : Fits pass.extent (marker (Text.size w + 1)) 0 (fuseWith passes w T)) :
    Closes w (passes ++ [pass]) T := by
  induction passes generalizing T with
  | nil => exact ⟨hfits, trivial⟩
  | cons first passes ih => exact ⟨h.1, ih h.2 hfits⟩

/-- Passes that keep redirection operators go over parted lists one after the other, and keep them
parted. -/
theorem fuseWith_append {passes : List Fusion}
    (hp : ∀ pass ∈ passes, pass.KeepsRedirects ∧ ∀ t, pass.Free t) {w : Text} {T S : List Token}
    (hT : ∀ t ∈ T, t.Inside w) (hS : Parted T S) (hc : Closes w passes T) (post : Text) :
    fuseWith passes (w ++ post) (T ++ S) =
        fuseWith passes w T ++ fuseWith passes (w ++ post) S ∧
      Parted (fuseWith passes w T) (fuseWith passes (w ++ post) S) := by
  induction passes generalizing T S with
  | nil => exact ⟨rfl, hS⟩
  | cons pass passes ih =>
    obtain ⟨hkeeps, hfree⟩ := hp pass List.mem_cons_self
    obtain ⟨hfits, hrest⟩ := hc
    rw [fuseWith_cons, pass.apply_append hT hS hfits fun t _ _ _ _ => hfree t]
    exact ih (fun p hp' => hp p (List.mem_cons_of_mem _ hp')) (Token.Inside.apply pass hT)
      (hS.apply hkeeps _ _) hrest

namespace Fusion

theorem keepsRedirects_dollarGroup {opener closer : Text} (s : Token) (ts : List Token)
    (h : s.isRedirectOperator = true) : dollarGroupExtent opener closer s ts = 0 := by
  have hlast : ∀ v ∈ [['>'], ['>', '>'], ['<']], (v.getLast? == some '$') = false := by decide
  cases ts with
  | nil => rfl
  | cons t ts =>
    rw [dollarGroupExtent, hlast _ (Token.eq_of_isRedirectOperator h).2, Bool.and_false,
      Bool.false_and, Bool.false_and]
    rfl

theorem keepsRedirects_emptyBraces : emptyBraces.KeepsRedirects := by
  intro s ts h
  cases ts with
  | nil => rfl
  | cons t ts =>
    have hs := Token.isBare_of_isRedirectOperator h (o := "\x7b") (by decide)
    rw [extent, emptyBracesExtent, hs, Bool.false_and, Bool.false_and]
    rfl

theorem keepsRedirects_heredoc : heredoc.KeepsRedirects := by
  intro s ts h
  cases ts with
  | nil => rfl
  | cons t ts =>
    have hs := Token.isBare_of_isRedirectOperator h (o := "<<") (by decide)
    rw [extent, heredocExtent, hs, Bool.false_and]
    rfl

end Fusion

/-- A text's groups, and those of what is parted from its tokens. -/
theorem fuseGroups_append {w : Text} {T S : List Token} (hT : ∀ t ∈ T, t.Inside w) (hS : Parted T S)
    (hc : Closes w Fusion.groups T) (post : Text) :
    fuseGroups (w ++ post) (T ++ S) = fuseGroups w T ++ fuseGroups (w ++ post) S := by
  -- A process substitution changes the operator at its front, so its pass is apart.
  let early : List Fusion := [.commandSubstitution, .braceExpansion, .emptyBraces, .heredoc]
  have hsplit : Closes w (early ++ [.processSubstitution]) T := hc
  obtain ⟨hearly, hfits, -⟩ := hsplit.append
  have hkeeps : ∀ pass ∈ early, pass.KeepsRedirects ∧ ∀ t, pass.Free t := by
    intro pass hpass
    simp only [early, List.mem_cons, List.not_mem_nil, or_false] at hpass
    rcases hpass with rfl | rfl | rfl | rfl
    · exact ⟨Fusion.keepsRedirects_dollarGroup, fun _ => trivial⟩
    · exact ⟨Fusion.keepsRedirects_dollarGroup, fun _ => trivial⟩
    · exact ⟨Fusion.keepsRedirects_emptyBraces, fun _ => trivial⟩
    · exact ⟨Fusion.keepsRedirects_heredoc, fun _ => trivial⟩
  obtain ⟨heq, hparted⟩ := fuseWith_append hkeeps hT hS hearly post
  have hlast := Fusion.processSubstitution.apply_append (Token.Inside.fuseWith early hT) hparted hfits
    (fun _ _ _ _ _ => trivial) post
  rw [← heq] at hlast
  exact hlast

theorem head?_fuseWith {line : Text} {passes : List Fusion} {S : List Token} {s : Token}
    (h : s ∈ (fuseWith passes line S).head?) :
    ∃ s₀ ∈ S.head?, s.start = s₀.start := by
  induction passes generalizing S with
  | nil => exact ⟨s, h, rfl⟩
  | cons pass passes ih =>
    obtain ⟨s₁, hs₁, hstart⟩ := ih h
    obtain ⟨s₀, hs₀, hsame, -⟩ := Fusion.head?_apply hs₁
    exact ⟨s₀, hs₀, hstart.trans hsame⟩

/-- The tokens of a text are fused by themselves if those behind them touch none of them, or start
with a redirection operator that belongs to no group and has no descriptor in the text. -/
theorem fuse_append {w post : Text} {T S : List Token} (hT : ∀ t ∈ T, t.Inside w)
    (hc : Closes w Fusion.all T)
    (hS : ∀ t ∈ T, ∀ s ∈ S.head?, t.touches s = true →
      s.isRedirectOperator = true ∧ (fuseGroups (w ++ post) S).head? = some s)
    (hfree : ∀ t ∈ fuse w T, ∀ s ∈ S.head?, t.touches s = true → t.isDescriptor = false) :
    fuse (w ++ post) (T ++ S) = fuse w T ++ fuse (w ++ post) S := by
  have hsplit : Closes w (Fusion.groups ++ [.descriptorRedirection]) T := hc
  obtain ⟨hgroups, hfits, -⟩ := hsplit.append
  have hmeet : ∀ {t s : Token}, (∃ u ∈ T, u.stop = t.stop) →
      s ∈ (fuseGroups (w ++ post) S).head? → t.touches s = true →
      s ∈ S.head? ∧ s.isRedirectOperator = true := by
    rintro t s ⟨u, hu, hstop⟩ hs htouch
    obtain ⟨s₀, hs₀, hstart⟩ := head?_fuseWith hs
    obtain ⟨hredirect, hhead⟩ := hS u hu s₀ hs₀ (by rwa [Token.touches, hstop, ← hstart])
    obtain rfl : s₀ = s := Option.some.inj (hhead.symm.trans hs)
    exact ⟨hs₀, hredirect⟩
  have hparted : Parted (fuseGroups w T) (fuseGroups (w ++ post) S) := fun t ht s hs htouch =>
    (hmeet (exists_of_mem_fuseWith ht).2 hs htouch).2
  rw [fuse_eq, fuseGroups_append hT (fun t ht s hs htouch => (hS t ht s hs htouch).1) hgroups]
  refine Fusion.apply_append _ (Token.Inside.fuseWith _ hT) hparted hfits ?_ post
  intro t ht s hs htouch
  have hall : t ∈ fuseWith Fusion.all w T := ht
  have hstop := (exists_of_mem_fuseWith hall).2
  exact hfree t ht s (hmeet hstop hs htouch).1 htouch

/-! ## Texts -/

/-- The tokens of a text, read and fused. -/
def fused (t : Text) : List Token := fuse t (tokenize t)

/-- What stands before a text only moves its tokens. -/
theorem fuseWith_shift (passes : List Fusion) {w : Text} {T : List Token}
    (hT : ∀ t ∈ T, t.Inside w) (pre : Text) :
    fuseWith passes (pre ++ w) (T.map (Token.shift (Text.size pre))) =
      (fuseWith passes w T).map (Token.shift (Text.size pre)) := by
  induction passes generalizing T with
  | nil => rfl
  | cons pass passes ih =>
    have hpass := coalesce_shift pass hT pre [] 0
    rw [List.append_nil] at hpass
    rw [fuseWith_cons, fuseWith_cons, Fusion.apply, hpass]
    exact ih (Token.Inside.apply pass hT)

/-- A word behind the text stays a token of its own. -/
def Closed (w : Text) : Prop := fused (w ++ [' ', 'x']) = fused w ++ [marker (Text.size w + 1)]

instance (w : Text) : Decidable (Closed w) := inferInstanceAs (Decidable (_ = _))

theorem Closed.closes {w : Text} (h : Closed w) (hc : CompleteBefore ' ' w) :
    Closes w Fusion.all (tokenize w) := by
  have hmarker : tokenizeFrom (Text.size w) 0 [' ', 'x'] = [marker (Text.size w + 1)] := rfl
  have hmem : marker (Text.size w + 1) ∈ fused (w ++ [' ', 'x']) := by
    rw [h]
    simp
  rw [fused, hc, hmarker] at hmem
  exact closes_of_mem (inside_tokenize w) rfl rfl (by simp) (fun pass _ => pass.apply_singleton _ _)
    ⟨_, hmem, rfl⟩

theorem closed_of_closes {w : Text} (hc : CompleteBefore ' ' w)
    (h : Closes w Fusion.all (tokenize w)) : Closed w := by
  have hinside := inside_tokenize w
  have hread : tokenizeFrom (Text.size w) 0 [' ', 'x'] = [marker (Text.size w + 1)] := rfl
  rw [Closed, fused, hc, hread, fuse_append hinside h]
  · exact congrArg (fused w ++ ·) (fuseWith_singleton Fusion.all _ _)
  · exact fun t ht s hs htouch => absurd htouch ((hinside t ht).touches_marker s hs)
  · exact fun t ht s hs htouch =>
      absurd htouch ((Token.Inside.fuseWith Fusion.all hinside t ht).touches_marker s hs)

/-- A text whose tokens touch those of a text behind it only at a redirection operator that stays
by itself. -/
theorem fused_append {w r : Text} {g g' : Char} (hc : CompleteBefore ' ' w) (hw : Closed w)
    (hb : CompleteBefore g w) (hg : SameEnd g g')
    (hS : ∀ t ∈ tokenize w, ∀ s ∈ (tokenize (g' :: r)).head?, t.stop = Text.size w + s.start →
      s.isRedirectOperator = true ∧ (fuseGroups (g' :: r) (tokenize (g' :: r))).head? = some s)
    (hfree : ∀ t ∈ fused w, ∀ s ∈ (tokenize (g' :: r)).head?, t.stop = Text.size w + s.start →
      t.isDescriptor = false) :
    fused (w ++ g' :: r) = fused w ++ (fused (g' :: r)).map (Token.shift (Text.size w)) := by
  have hread : tokenize (w ++ g' :: r) =
      tokenize w ++ (tokenize (g' :: r)).map (Token.shift (Text.size w)) := by
    rw [tokenize, tokenizeFrom_append hb hg, ← tokenizeFrom_eq, Nat.zero_add]
    rfl
  have hhead : ∀ {t s : Token}, s ∈ ((tokenize (g' :: r)).map (Token.shift (Text.size w))).head? →
      t.touches s = true → ∃ s₀ ∈ (tokenize (g' :: r)).head?, s = s₀.shift (Text.size w) ∧
        t.stop = Text.size w + s₀.start := by
    intro t s hs htouch
    rw [List.head?_map, Option.mem_def, Option.map_eq_some_iff] at hs
    obtain ⟨s₀, hs₀, rfl⟩ := hs
    exact ⟨s₀, hs₀, rfl, beq_iff_eq.mp htouch⟩
  have hgroups := fuseWith_shift Fusion.groups (inside_tokenize (g' :: r)) w
  rw [fused, hread, fuse_append (inside_tokenize w) (hw.closes hc)]
  · exact congrArg (fused w ++ ·) (fuseWith_shift Fusion.all (inside_tokenize (g' :: r)) w)
  · intro t ht s hs htouch
    obtain ⟨s₀, hs₀, rfl, hmeet⟩ := hhead hs htouch
    obtain ⟨hredirect, hkeep⟩ := hS t ht s₀ hs₀ hmeet
    refine ⟨hredirect, ?_⟩
    rw [fuseGroups, hgroups, List.head?_map]
    exact congrArg (Option.map (Token.shift (Text.size w))) hkeep
  · intro t ht s hs htouch
    obtain ⟨s₀, hs₀, -, hmeet⟩ := hhead hs htouch
    exact hfree t ht s₀ hs₀ hmeet

theorem stop_le_of_mem_fused {w : Text} {t : Token} (h : t ∈ fused w) : t.stop ≤ Text.size w :=
  (Token.Inside.fuseWith Fusion.all (inside_tokenize w) t h).2

/-- No token starts at a gap. -/
theorem start_pos_of_isGap {g : Char} (hg : isGap g = true) {r : Text} {s : Token}
    (h : s ∈ (tokenize (g :: r)).head?) : 0 < s.start := by
  rw [tokenize, tokenizeFrom_cons_of_isGap hg, tokenizeFrom_eq] at h
  obtain ⟨u, -, rfl⟩ := List.mem_map.mp (List.mem_of_mem_head? h)
  have hpos := g.utf8Size_pos
  show 0 < 0 + g.utf8Size + u.start
  omega

/-- Behind a gap, reading and fusing start anew. -/
theorem fused_append_gap {w : Text} (hc : CompleteBefore ' ' w) (hw : Closed w) {g : Char}
    (hg : isGap g = true) (r : Text) :
    fused (w ++ g :: r) = fused w ++ (fused (g :: r)).map (Token.shift (Text.size w)) := by
  refine fused_append hc hw hc (.inl ⟨by decide, hg⟩) ?_ ?_
  · intro t ht s hs hmeet
    have hstop := (inside_tokenize w t ht).2
    have hpos := start_pos_of_isGap hg hs
    omega
  · intro t ht s hs hmeet
    have hstop := stop_le_of_mem_fused ht
    have hpos := start_pos_of_isGap hg hs
    omega

/-- So they do at a redirection operator, unless the text ends in what may be its descriptor. -/
theorem fused_append_redirect {w : Text} (hc : CompleteBefore ' ' w) (hw : Closed w) {g : Char}
    (hg : g = '<' ∨ g = '>') (hb : CompleteBefore g w)
    (hfree : ∀ t ∈ fused w, t.stop = Text.size w → t.isDescriptor = false) {r : Text} {s : Token}
    (hs : (tokenize (g :: r)).head? = some s) (hredirect : s.isRedirectOperator = true)
    (hkeep : (fuseGroups (g :: r) (tokenize (g :: r))).head? = some s) :
    fused (w ++ g :: r) = fused w ++ (fused (g :: r)).map (Token.shift (Text.size w)) := by
  refine fused_append hc hw hb (.inr ⟨rfl, hg⟩) ?_ ?_
  · intro t _ s' hs' _
    obtain rfl : s = s' := Option.some.inj (hs.symm.trans hs')
    exact ⟨hredirect, hkeep⟩
  · intro t ht s' _ hmeet
    have hstop := stop_le_of_mem_fused ht
    exact hfree t ht (by omega)

end CrossShell
