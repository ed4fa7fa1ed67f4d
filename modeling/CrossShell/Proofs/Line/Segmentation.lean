import CrossShell.Proofs.Line.Chunks
import CrossShell.Proofs.Line.Connectors
import CrossShell.Proofs.Token.Groups

/-!
# Cutting a line loses nothing and keeps groups whole

Every way to cut a line gives back the line up to blanks, never cuts inside a group, and misses no
separator outside of all groups.

* `Segmentation`: the parts of a line that is cut at some of its tokens. `segmentation_cutLine`: the
  chunks of a line and its separators are such parts.
* `separators_group`: no separator stands in a group, although the nesting forgets closing tokens
  that close nothing.
* `mem_separators_iff`: the tokens that are separators.
* `line_segmentation`: all three for connectors, sequences and pipelines.
-/

namespace CrossShell

open Text

/-! ## The parts of a line -/

/-- Texts in order, with only blanks between and around them. -/
inductive Interspersed : List Text → Text → Prop
  /-- Nothing but blanks. -/
  | nil {gap : Text} (hgap : Blank gap) : Interspersed [] gap
  /-- Blanks, the first of the texts, and what the others are in. -/
  | cons {gap part rest : Text} {parts : List Text} (hgap : Blank gap)
      (hrest : Interspersed parts rest) : Interspersed (part :: parts) (gap ++ part ++ rest)

theorem Interspersed.blank_append {parts : List Text} {gap t : Text} (hgap : Blank gap)
    (h : Interspersed parts t) : Interspersed parts (gap ++ t) := by
  cases h with
  | nil hgap' => exact .nil (hgap.append hgap')
  | cons hgap' hrest =>
    rw [← List.append_assoc, ← List.append_assoc]
    exact .cons (hgap.append hgap') hrest

/-- A part of a line that is cut. -/
inductive LinePart where
  /-- What stands between separators. -/
  | chunk (text : Text)
  /-- A separator. -/
  | separator (text : Text)
  deriving DecidableEq, Repr

namespace LinePart

/-- The text of a part. -/
def text : LinePart → Text
  | chunk t => t
  | separator t => t

/-- The text of a chunk. -/
def chunk? : LinePart → Option Text
  | chunk t => some t
  | separator _ => none

/-- The text of a separator. -/
def separator? : LinePart → Option Text
  | chunk _ => none
  | separator t => some t

end LinePart

/-- The line between its separators, trimmed. -/
def chunkTexts (line : Text) (cuts : List Token) : List Text :=
  (chunkBounds line 0 cuts).map fun bounds => trim (slice bounds.1 bounds.2 line)

/-- The parts of a line that is cut at the given tokens. -/
structure Segmentation (line : Text) (cuts : List Token) (parts : List LinePart) : Prop where
  /-- The line is its parts, in order, with blanks around them. -/
  interspersed : Interspersed (parts.map LinePart.text) line
  /-- The separators are the tokens at which it is cut. -/
  separators_eq : parts.filterMap LinePart.separator? = cuts.map Token.value
  /-- What stands between them is not lost, unless it is blank. -/
  chunks_eq : parts.filterMap LinePart.chunk? = (chunkTexts line cuts).filter (!·.isEmpty)

/-- A chunk, unless it is empty, and the separator behind it. -/
def Chunk.parts (chunk : Chunk) : List LinePart :=
  (if chunk.text.isEmpty then [] else [.chunk chunk.text]) ++
    (chunk.separator.map LinePart.separator).toList

/-- A piece of a line, in front of parts of the rest. -/
theorem interspersed_trim {parts : List LinePart} {rest : Text}
    (h : Interspersed (parts.map LinePart.text) rest) (a : Text) :
    Interspersed (((if (trim a).isEmpty then [] else [LinePart.chunk (trim a)]) ++ parts).map LinePart.text)
      (a ++ rest) := by
  obtain ⟨pre, post, hpre, hpost, heq, -⟩ := exists_eq_trim a
  by_cases hempty : (trim a).isEmpty = true
  · rw [if_pos hempty, List.nil_append]
    rw [List.isEmpty_iff.mp hempty, List.append_nil] at heq
    rw [heq]
    exact h.blank_append (hpre.append hpost)
  · rw [if_neg hempty, List.singleton_append, List.map_cons]
    have hsplit : a ++ rest = pre ++ trim a ++ (post ++ rest) := by
      conv => lhs; rw [heq]
      simp only [List.append_assoc]
    rw [hsplit]
    exact .cons hpre (h.blank_append hpost)

theorem interspersed_piecesOf (a : Text) (cuts : List (Token × Text)) :
    Interspersed (((piecesOf a cuts).flatMap Chunk.parts).map LinePart.text) (ofCuts a cuts) := by
  induction cuts generalizing a with
  | nil =>
    have hnone : Interspersed ([].map LinePart.text) [] := .nil blank_nil
    have h := interspersed_trim hnone a
    rw [List.append_nil a] at h
    rw [ofCuts_nil, piecesOf, List.flatMap_singleton]
    exact h
  | cons cut cuts ih =>
    obtain ⟨t, b⟩ := cut
    rw [ofCuts_cons, piecesOf, List.flatMap_cons, Chunk.parts, List.append_assoc, List.append_assoc]
    refine interspersed_trim ?_ a
    exact .cons blank_nil (ih b)

theorem filterMap_separator_piecesOf (a : Text) (cuts : List (Token × Text)) :
    ((piecesOf a cuts).flatMap Chunk.parts).filterMap LinePart.separator? =
      (cuts.map Prod.fst).map Token.value := by
  induction cuts generalizing a with
  | nil =>
    rw [piecesOf, List.flatMap_singleton, Chunk.parts]
    split <;> rfl
  | cons cut cuts ih =>
    rw [piecesOf, List.flatMap_cons, List.filterMap_append, ih, Chunk.parts]
    split <;> rfl

theorem filterMap_chunk_parts (chunks : List Chunk) :
    (chunks.flatMap Chunk.parts).filterMap LinePart.chunk? =
      (chunks.map Chunk.text).filter (!·.isEmpty) := by
  induction chunks with
  | nil => rfl
  | cons chunk chunks ih =>
    obtain ⟨text, separator⟩ := chunk
    rw [List.flatMap_cons, List.filterMap_append, ih, Chunk.parts, List.map_cons]
    cases separator <;> cases text <;> rfl

/-- The chunks of a line and its separators are the parts of the line. -/
theorem segmentation_cutLine {σ : Type} (cutter : Cutter σ) (s : σ) (line : Text) :
    Segmentation line (separators cutter .top s (tokenize line))
      ((cutLine cutter s line).flatMap Chunk.parts) := by
  refine ⟨?_, ?_, ?_⟩
  · obtain ⟨a, cuts, rfl, -, -, hchunks⟩ := exists_cutLine_eq cutter s line
    rw [hchunks]
    exact interspersed_piecesOf a cuts
  · obtain ⟨a, cuts, rfl, -, hcuts, hchunks⟩ := exists_cutLine_eq cutter s line
    rw [hchunks, ← hcuts]
    exact filterMap_separator_piecesOf a cuts
  · obtain ⟨pieces, htexts, hpieces⟩ := forall₂_isPiece cutter s line
    have hslices : (chunkBounds line 0 (separators cutter .top s (tokenize line))).map
        (fun bounds => slice bounds.1 bounds.2 line) = pieces := by
      refine List.forall₂_eq_eq_eq ▸ ?_
      exact List.forall₂_map_left_iff.mpr (hpieces.imp fun _ _ hp => hp.slice_eq)
    rw [filterMap_chunk_parts, htexts, ← hslices, List.map_map]
    rfl

/-- The parts of a line that is cut at its connectors. -/
def Segment.part : Segment → LinePart
  | .commands text => .chunk text
  | .connector c => .separator c.text

/-- The stages of a pipeline with the given parts. -/
def pipeStages : List LinePart → List Text
  | [] => []
  | .chunk text :: rest =>
    (if rest.head? = some (.separator "|&") then text ++ " 2>&1" else text) :: pipeStages rest
  | .separator _ :: rest => pipeStages rest

theorem Connector.text_of_ofText? {t : Text} {c : Connector} (h : ofText? t = some c) :
    c.text = t := by
  rw [ofText?] at h
  split at h
  · rename_i heq
    cases h
    exact heq.symm
  · split at h
    · rename_i heq
      cases h
      exact heq.symm
    · cases h

theorem map_part_segments {chunk : Chunk}
    (h : ∀ v ∈ chunk.separator, (Connector.ofText? v).isSome = true) :
    chunk.segments.map Segment.part = chunk.parts := by
  obtain ⟨text, separator⟩ := chunk
  rw [Chunk.segments, Chunk.parts, List.map_append]
  congr 1
  · split <;> rfl
  · cases separator with
    | none => rfl
    | some v =>
      obtain ⟨c, hc⟩ := Option.isSome_iff_exists.mp (h v rfl)
      rw [Option.bind_some, hc, Option.map_some, Option.map_some, Option.toList_some,
        Option.toList_some, List.map_singleton, Segment.part, Connector.text_of_ofText? hc]

theorem exists_of_separator_mem {σ : Type} {cutter : Cutter σ} {s : σ} {line : Text} {chunk : Chunk}
    (h : chunk ∈ cutLine cutter s line) {v : Text} (hv : v ∈ chunk.separator) :
    ∃ t ∈ separators cutter .top s (tokenize line), t.value = v := by
  have hmem : v ∈ ((cutLine cutter s line).flatMap Chunk.parts).filterMap LinePart.separator? := by
    refine List.mem_filterMap.mpr ⟨.separator v, List.mem_flatMap.mpr ⟨chunk, h, ?_⟩, rfl⟩
    rw [Chunk.parts, Option.mem_def.mp hv]
    exact List.mem_append_right _ List.mem_cons_self
  rw [(segmentation_cutLine cutter s line).separators_eq] at hmem
  exact List.mem_map.mp hmem

theorem map_part_splitConnectors (line : Text) :
    (splitConnectors line).map Segment.part =
      (cutLine connectorCutter () line).flatMap Chunk.parts := by
  rw [splitConnectors, List.map_flatMap]
  refine List.flatMap_congr fun chunk hchunk => map_part_segments fun v hv => ?_
  obtain ⟨t, ht, rfl⟩ := exists_of_separator_mem hchunk hv
  have htest := separators_ofTest_test ht
  rw [Bool.and_eq_true] at htest
  exact htest.2

theorem Chunk.stage_some (text v : Text) :
    Chunk.stage ⟨text, some v⟩ = if v = "|&" then text ++ " 2>&1" else text := by
  by_cases hv : v = "|&".toList
  · rw [if_pos hv]
    exact if_pos (congrArg some hv)
  · rw [if_neg hv]
    exact if_neg fun h => hv (Option.some.inj h)

theorem pipeStages_piecesOf (a : Text) (cuts : List (Token × Text)) :
    pipeStages ((piecesOf a cuts).flatMap Chunk.parts) =
      ((piecesOf a cuts).filter (!·.text.isEmpty)).map Chunk.stage := by
  induction cuts generalizing a with
  | nil =>
    rw [piecesOf, List.flatMap_singleton, Chunk.parts, List.filter_singleton]
    cases trim a <;> rfl
  | cons cut cuts ih =>
    obtain ⟨t, b⟩ := cut
    rw [piecesOf, List.flatMap_cons, Chunk.parts, List.filter_cons]
    cases trim a with
    | nil => exact ih b
    | cons c cs =>
      show (if some (LinePart.separator t.value) = some (.separator "|&") then c :: cs ++ " 2>&1"
        else c :: cs) :: pipeStages ((piecesOf b cuts).flatMap Chunk.parts) = Chunk.stage _ :: _
      rw [ih, Chunk.stage_some]
      simp only [Option.some.injEq, LinePart.separator.injEq]

/-! ## Groups are not cut -/

/-- The number of open groups of a kind. -/
def Nesting.count (n : Nesting) : Bracket → Nat
  | .paren => n.parens
  | .brace => n.braces

theorem Nesting.count_step (n : Nesting) (t : Token) (k : Bracket) :
    (n.step t).count k =
      if t.isBare k.opener then n.count k + 1
      else if t.isBare k.closer then n.count k - 1
      else n.count k := by
  obtain ⟨value, start, stop, quote⟩ := t
  cases quote with
  | some q => cases k <;> rfl
  | none =>
    -- Of the four texts that count, at most one is that of the token.
    by_cases hpo : value = ['(']
    · subst hpo; cases k <;> rfl
    by_cases hpc : value = [')']
    · subst hpc; cases k <;> rfl
    by_cases hbo : value = ['{']
    · subst hbo; cases k <;> rfl
    by_cases hbc : value = ['}']
    · subst hbc; cases k <;> rfl
    cases k <;> simp [step, count, Token.isBare, Bracket.opener, Bracket.closer, hpo, hpc, hbo, hbc]

theorem Nesting.isTop_of_count_pos {n : Nesting} {k : Bracket} (h : 0 < n.count k) :
    n.isTop = false := by
  cases htop : n.isTop with
  | false => rfl
  | true =>
    rw [eq_top_of_isTop htop] at h
    cases k <;> cases h

section

variable {σ : Type} {cutter : Cutter σ} {k : Bracket}

theorem separators_cons_of_count_pos {n : Nesting} {t : Token} (h : 0 < (n.step t).count k) (s : σ)
    (ts : List Token) : separators cutter n s (t :: ts) = separators cutter (n.step t) s ts := by
  rw [separators, Nesting.isTop_of_count_pos h]
  rfl

/-- Tokens in which a group stays open hold no separator. -/
theorem separators_within {e : Nat} {ts : List Token} (h : k.Within e ts) {n : Nesting}
    (he : e < n.count k) (s : σ) (us : List Token) :
    separators cutter n s (ts ++ us) = separators cutter (n.after ts) s us := by
  induction ts generalizing n e with
  | nil => rfl
  | cons t ts ih =>
    rw [Bracket.within_cons_iff] at h
    have hcount := n.count_step t k
    rw [List.cons_append, Nesting.after_cons]
    split at h
    · rename_i hopen
      rw [if_pos hopen] at hcount
      rw [separators_cons_of_count_pos (k := k) (by omega), ih h (by omega)]
    · rename_i hopen
      rw [if_neg hopen] at hcount
      split at h
      · rename_i hclose
        rw [if_pos hclose] at hcount
        rw [separators_cons_of_count_pos (k := k) (by omega), ih h.2 (by omega)]
      · rename_i hclose
        rw [if_neg hclose] at hcount
        rw [separators_cons_of_count_pos (k := k) (by omega), ih h (by omega)]

/-- No separator stands in a group. -/
theorem separators_group (hcutter : ∀ s t, t.isBare k.closer = true → cutter.cuts s t = false)
    {group behind : List Token} (h : k.Group group behind) (n : Nesting) (s : σ) :
    ∃ n' s', separators cutter n s (group ++ behind) = separators cutter n' s' behind := by
  have hopened : ∀ {o : Token}, o.isBare k.opener = true → 0 < (n.step o).count k := by
    intro o ho
    rw [n.count_step, if_pos ho]
    omega
  cases h with
  | @closed o c inner ho hinner hc =>
    rw [List.cons_append, List.append_assoc, separators_cons_of_count_pos (hopened ho),
      separators_within hinner.1 (hopened ho), List.singleton_append, separators, hcutter s c hc]
    simp only [Bool.false_eq_true, ↓reduceIte]
    split
    · exact ⟨_, _, rfl⟩
    · exact ⟨_, _, rfl⟩
  | @unclosed o inner ho hinner =>
    rw [List.cons_append, separators_cons_of_count_pos (hopened ho),
      separators_within hinner (hopened ho)]
    exact ⟨_, _, rfl⟩

end

/-- The chunk between the separators of two lists that follow each other. -/
theorem exists_mem_chunkBounds (line : Text) (start : Nat) (cuts cuts' : List Token) :
    ∃ bounds ∈ chunkBounds line start (cuts ++ cuts'),
      (bounds.1 = start ∨ ∃ t ∈ cuts, bounds.1 = t.stop) ∧
      (bounds.2 = size line ∨ ∃ t ∈ cuts', bounds.2 = t.start) := by
  induction cuts generalizing start with
  | nil =>
    cases cuts' with
    | nil => exact ⟨_, List.mem_cons_self, .inl rfl, .inl rfl⟩
    | cons t ts => exact ⟨_, List.mem_cons_self, .inl rfl, .inr ⟨t, List.mem_cons_self, rfl⟩⟩
  | cons t cuts ih =>
    obtain ⟨bounds, hmem, hleft, hright⟩ := ih t.stop
    refine ⟨bounds, List.mem_cons_of_mem _ hmem, .inr ?_, hright⟩
    rcases hleft with hleft | ⟨u, hu, hleft⟩
    · exact ⟨t, List.mem_cons_self, hleft⟩
    · exact ⟨u, List.mem_cons_of_mem t hu, hleft⟩

/-- No group of the line is cut: each opening token starts one that holds none of the given tokens
and lies in one chunk. -/
def KeepsGroups (line : Text) (cuts : List Token) : Prop :=
  ∀ (k : Bracket) (before : List Token) (o : Token) (rest : List Token),
    tokenize line = before ++ o :: rest → o.isBare k.opener = true →
    ∃ group behind, o :: rest = group ++ behind ∧ k.Group group behind ∧ (∀ t ∈ group, t ∉ cuts) ∧
      ∃ bounds ∈ chunkBounds line 0 cuts, ∀ t ∈ group, t.liesIn bounds = true

/-- A cutter that never cuts at a closing token keeps groups whole. -/
theorem keepsGroups_separators {σ : Type} (cutter : Cutter σ)
    (hcutter : ∀ (k : Bracket) s t, t.isBare k.closer = true → cutter.cuts s t = false) (s : σ)
    (line : Text) : KeepsGroups line (separators cutter .top s (tokenize line)) := by
  intro k before o rest htokens ho
  obtain ⟨group, behind, hsplit, hgroup⟩ := Bracket.exists_group ho rest
  refine ⟨group, behind, hsplit, hgroup, ?_⟩
  rw [hsplit] at htokens
  obtain ⟨n', s', hbehind⟩ := separators_group (hcutter k) hgroup
    (Nesting.top.after before) (cutter.after .top s before)
  have hcuts : separators cutter .top s (tokenize line) =
      separators cutter .top s before ++ separators cutter n' s' behind := by
    rw [htokens, separators_append, hbehind]
  rw [hcuts]
  -- The separators stand in front of the group and behind it, and tokens do not overlap.
  have horder : InOrder (before ++ (group ++ behind)) := htokens ▸ inOrder_tokenizeFrom 0 line
  have hbefore := (separators_sublist cutter .top s before).subset
  have hafter := (separators_sublist cutter n' s' behind).subset
  have hfront : ∀ t ∈ group, ∀ u ∈ separators cutter .top s before, u.stop ≤ t.start :=
    fun t ht u hu => horder.append u (hbefore hu) t (List.mem_append_left _ ht)
  have hback : ∀ t ∈ group, ∀ u ∈ separators cutter n' s' behind, t.stop ≤ u.start :=
    fun t ht u hu => (horder.sublist (List.sublist_append_right _ _)).append t ht u (hafter hu)
  have hmem : ∀ t ∈ group, t ∈ tokenize line := fun t ht =>
    htokens ▸ List.mem_append_right _ (List.mem_append_left _ ht)
  refine ⟨fun t ht hcut => ?_, ?_⟩
  · have hlt := start_lt_stop_of_mem_tokenizeFrom t (hmem t ht)
    rcases List.mem_append.mp hcut with hcut | hcut
    · have := hfront t ht t hcut
      omega
    · have := hback t ht t hcut
      omega
  · obtain ⟨bounds, hbounds, hleft, hright⟩ := exists_mem_chunkBounds line 0
      (separators cutter .top s before) (separators cutter n' s' behind)
    refine ⟨bounds, hbounds, fun t ht => ?_⟩
    rw [Token.liesIn, Bool.and_eq_true, decide_eq_true_eq, decide_eq_true_eq]
    constructor
    · rcases hleft with hleft | ⟨u, hu, hleft⟩
      · omega
      · exact hleft ▸ hfront t ht u hu
    · rcases hright with hright | ⟨u, hu, hright⟩
      · have := (bounds_of_mem_tokenizeFrom (hmem t ht)).2
        omega
      · exact hright ▸ hback t ht u hu

/-! ## Every separator is a cut -/

/-- A token of a line is a separator if no group is open behind it and the cutter cuts there. -/
theorem mem_separators_iff {σ : Type} (cutter : Cutter σ) (s : σ) {line : Text}
    {before behind : List Token} {t : Token} (htokens : tokenize line = before ++ t :: behind) :
    t ∈ separators cutter .top s (tokenize line) ↔
      (Nesting.top.after (before ++ [t])).isTop = true ∧
        cutter.cuts (cutter.after .top s before) t = true := by
  have horder : InOrder (before ++ t :: behind) := htokens ▸ inOrder_tokenizeFrom 0 line
  have hlt : t.start < t.stop := horder.1 t (List.mem_append_right _ List.mem_cons_self)
  have hbefore : t ∉ separators cutter .top s before := by
    intro h
    have := horder.append t ((separators_sublist ..).subset h) t List.mem_cons_self
    omega
  have hbehind : ∀ n s', t ∉ separators cutter n s' behind := by
    intro n s' h
    have hpairs := (horder.sublist (List.sublist_append_right _ _)).2
    have := (List.pairwise_cons.mp hpairs).1 t ((separators_sublist ..).subset h)
    omega
  rw [htokens, separators_append, Nesting.after_concat, separators]
  by_cases htop : ((Nesting.top.after before).step t).isTop = true
  · by_cases hcut : cutter.cuts (cutter.after .top s before) t = true
    · simp [htop, hcut]
    · simp [htop, hcut, hbefore, hbehind]
  · simp [htop, hbefore, hbehind]

/-! ## The three ways to cut -/

/-- The connectors at which a line is cut. -/
def connectorCuts (line : Text) : List Token := separators connectorCutter .top () (tokenize line)

/-- The `;` at which a line is cut. -/
def sequenceCuts (line : Text) : List Token := separators sequenceCutter .top {} (tokenize line)

/-- The bars at which a line is cut. -/
def pipeCuts (line : Text) : List Token := separators pipeCutter .top () (tokenize line)

theorem isBare_of_closer {k : Bracket} {t : Token} (h : t.isBare k.closer = true) {v : Text}
    (hv : v ≠ [')'] ∧ v ≠ ['}']) : t.isBare v = false := by
  refine Token.isBare_of_ne h ?_
  cases k with
  | paren => exact hv.1.symm
  | brace => exact hv.2.symm

theorem connectorCutter_cuts (t : Token) :
    connectorCutter.cuts () t = (t.isBare "&&" || t.isBare "||") := by
  show (t.quote.isNone && (Connector.ofText? t.value).isSome) = _
  rw [Token.isBare, Token.isBare, ← Bool.and_or_distrib_left, Connector.ofText?]
  congr 1
  by_cases hand : t.value = "&&".toList
  · rw [if_pos hand, hand]
    rfl
  · rw [if_neg hand, beq_eq_false_iff_ne.mpr hand, Bool.false_or]
    by_cases hor : t.value = "||".toList
    · rw [if_pos hor, hor]
      rfl
    · rw [if_neg hor, beq_eq_false_iff_ne.mpr hor]
      rfl

/-- Every way to cut a line keeps all of it but blanks, keeps its groups whole, and cuts at each
separator outside of groups. A `;` that ends a run of `find -exec` is no separator. -/
theorem line_segmentation (line : Text) :
    (Segmentation line (connectorCuts line) ((splitConnectors line).map Segment.part) ∧
      (∃ parts, Segmentation line (pipeCuts line) parts ∧ splitPipe line = pipeStages parts) ∧
      ∃ parts, Segmentation line (sequenceCuts line) parts ∧
        splitSequence line = parts.filterMap LinePart.chunk?) ∧
    (∀ cuts ∈ [connectorCuts line, pipeCuts line, sequenceCuts line], KeepsGroups line cuts) ∧
    ∀ before t behind, tokenize line = before ++ t :: behind →
      (t ∈ connectorCuts line ↔ (Nesting.top.after (before ++ [t])).isTop = true ∧
        (t.isBare "&&" = true ∨ t.isBare "||" = true)) ∧
      (t ∈ pipeCuts line ↔ (Nesting.top.after (before ++ [t])).isTop = true ∧
        (t.isBare "|" = true ∨ t.isBare "|&" = true)) ∧
      (t ∈ sequenceCuts line ↔ (Nesting.top.after (before ++ [t])).isTop = true ∧
        t.isBare ";" = true ∧ (sequenceCutter.after .top {} before).execOpen = false) := by
  refine ⟨⟨?_, ⟨_, segmentation_cutLine pipeCutter () line, ?_⟩,
    ⟨_, segmentation_cutLine sequenceCutter {} line, ?_⟩⟩, ?_, ?_⟩
  · rw [map_part_splitConnectors]
    exact segmentation_cutLine connectorCutter () line
  · obtain ⟨a, cuts, -, -, -, hchunks⟩ := exists_cutLine_eq pipeCutter () line
    rw [splitPipe, hchunks, pipeStages_piecesOf]
  · rw [splitSequence, filterMap_chunk_parts]
  · simp only [List.mem_cons, List.not_mem_nil, or_false, forall_eq_or_imp, forall_eq]
    refine ⟨keepsGroups_separators connectorCutter (fun k s t ht => ?_) () line,
      keepsGroups_separators pipeCutter (fun k s t ht => ?_) () line,
      keepsGroups_separators sequenceCutter (fun k s t ht => ?_) {} line⟩
    · rw [connectorCutter_cuts, isBare_of_closer ht (by decide), isBare_of_closer ht (by decide)]
      rfl
    · show (t.isBare "|" || t.isBare "|&") = false
      rw [isBare_of_closer ht (by decide), isBare_of_closer ht (by decide)]
      rfl
    · show (t.isBare ";" && _) = false
      rw [isBare_of_closer ht (by decide), Bool.false_and]
  · intro before t behind htokens
    refine ⟨?_, ?_, ?_⟩
    · rw [connectorCuts, mem_separators_iff _ _ htokens, connectorCutter_cuts, Bool.or_eq_true]
    · rw [pipeCuts, mem_separators_iff _ _ htokens]
      refine and_congr_right fun _ => ?_
      show (t.isBare "|" || t.isBare "|&") = true ↔ _
      rw [Bool.or_eq_true]
    · rw [sequenceCuts, mem_separators_iff _ _ htokens]
      refine and_congr_right fun _ => ?_
      show (t.isBare ";" && !_) = true ↔ _
      rw [Bool.and_eq_true, Bool.not_eq_true']

/-- A line with a closing token that closes nothing, and a group that is not closed. -/
def unbalancedLine : Text := ") && (a || \x7b b | c) |& d && (e | f"

theorem line_segmentation_unbalancedLine :
    Segmentation unbalancedLine (connectorCuts unbalancedLine)
        [.chunk ")", .separator "&&", .chunk "(a || \x7b b | c) |& d && (e | f"] ∧
      KeepsGroups unbalancedLine (connectorCuts unbalancedLine) ∧
      ⟨"&&", 2, 4, none⟩ ∈ connectorCuts unbalancedLine ∧
      ⟨"&&", 25, 27, none⟩ ∉ connectorCuts unbalancedLine := by
  obtain ⟨⟨hparts, -, -⟩, hgroups, hcuts⟩ := line_segmentation unbalancedLine
  have hsplit : (splitConnectors unbalancedLine).map Segment.part =
      [.chunk ")", .separator "&&", .chunk "(a || \x7b b | c) |& d && (e | f"] := by decide
  have htokens : ∀ n, tokenize unbalancedLine =
      (tokenize unbalancedLine).take n ++ (tokenize unbalancedLine).drop n :=
    fun n => (List.take_append_drop n _).symm
  refine ⟨hsplit ▸ hparts, hgroups _ List.mem_cons_self, ?_, ?_⟩
  · exact (hcuts _ _ _ (htokens 1)).1.mpr ⟨by decide, .inl (by decide)⟩
  · exact fun h => absurd ((hcuts _ _ _ (htokens 12)).1.mp h).1 (by decide)

end CrossShell
