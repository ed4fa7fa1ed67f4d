import CrossShell.Proofs.Chain.ShortCircuit
import CrossShell.Proofs.Conversion.Stages

/-!
# Connectors of a rebuilt line

A line is rebuilt from its converted stages, and read again to find its connectors. Reading finds
the connectors of the original line if no stage shows a connector of its own (`Quiet`) and none
hides what stands behind it (`Carries`).

* `Piece`: a rebuilt line before it is text. `found_pieces` reads it piece by piece.
* `connectorsOf_rebuild`: the connectors are kept if all stages are quiet and those with something
  behind them carry.
* `breaks_of_not_quiet`, `breaks_of_not_carries`: a stage that is not so breaks a line.
* `rebuild_keeps_connectors`: the connectors are kept if the converted stages are legible, and lost
  by any stage that comes out otherwise.
* `rebuild_shows_connector`: `export` shows a connector that was quoted, and so does white space
  that separates no tokens.
-/

namespace CrossShell

open Text (trim trimFront)

/-! ## Joined texts -/

/-- A separator that leads from a ready state back to the initial state, and is no connector. -/
structure IsGlue (sep : Text) : Prop where
  after : ∀ s : Scan, s.ready = true → s.after sep = .init
  found : ∀ s : Scan, s.found sep = []

theorem isGlue_pipe : IsGlue " | " := ⟨fun _ => Scan.pipe_of_ready, Scan.found_pipe⟩

theorem isGlue_semicolon : IsGlue "; " := ⟨fun _ => Scan.semicolon_of_ready, Scan.found_semicolon⟩

section

variable {sep : Text} (hg : IsGlue sep)
include hg

theorem IsGlue.found_append {u : Text} (hu : (Scan.init.after u).ready = true) (v : Text) :
    Scan.init.found (u ++ sep ++ v) = Scan.init.found u ++ Scan.init.found v := by
  rw [List.append_assoc, Scan.found_append, Scan.found_append, hg.after _ hu, hg.found,
    List.nil_append]

theorem IsGlue.after_append {u : Text} (hu : (Scan.init.after u).ready = true) (v : Text) :
    Scan.init.after (u ++ sep ++ v) = Scan.init.after v := by
  rw [List.append_assoc, Scan.after_append, Scan.after_append, hg.after _ hu]

/-- Joined texts are quiet if each is and all but the last are ready. -/
theorem IsGlue.found_join {us : List Text} (hq : ∀ u ∈ us, Scan.init.found u = [])
    (hr : ∀ u ∈ us.dropLast, (Scan.init.after u).ready = true) :
    Scan.init.found (Text.join sep us) = [] := by
  induction us with
  | nil => rfl
  | cons u us ih =>
    cases us with
    | nil => exact hq u List.mem_cons_self
    | cons v us =>
      rw [Text.join, hg.found_append (hr u List.mem_cons_self), hq u List.mem_cons_self,
        List.nil_append]
      exact ih (fun w hw => hq w (List.mem_cons_of_mem _ hw))
        fun w hw => hr w (List.mem_cons_of_mem _ hw)

theorem IsGlue.ready_join {us : List Text} (hr : ∀ u ∈ us, (Scan.init.after u).ready = true) :
    (Scan.init.after (Text.join sep us)).ready = true := by
  induction us with
  | nil => rfl
  | cons u us ih =>
    cases us with
    | nil => exact hr u List.mem_cons_self
    | cons v us =>
      rw [Text.join, hg.after_append (hr u List.mem_cons_self)]
      exact ih fun w hw => hr w (List.mem_cons_of_mem _ hw)

end

/-! ## Pipelines -/

/-- The text of pipelines. -/
def pipelinesText (ps : List (List Text)) : Text := Text.join "; " (ps.map (Text.join " | "))

theorem ready_pipelinesText {ps : List (List Text)}
    (hr : ∀ u ∈ ps.flatten, (Scan.init.after u).ready = true) :
    (Scan.init.after (pipelinesText ps)).ready = true := by
  refine isGlue_semicolon.ready_join fun u hu => ?_
  obtain ⟨p, hp, rfl⟩ := List.mem_map.mp hu
  exact isGlue_pipe.ready_join fun w hw => hr w (List.mem_flatten_of_mem hp hw)

/-- Empty pipelines leave separators only. -/
theorem found_pipelinesText_of_flatten_eq_nil (s : Scan) {ps : List (List Text)}
    (h : ps.flatten = []) : s.found (pipelinesText ps) = [] := by
  induction ps generalizing s with
  | nil => rfl
  | cons p ps ih =>
    rw [List.flatten_cons, List.append_eq_nil_iff] at h
    obtain ⟨rfl, hps⟩ := h
    cases ps with
    | nil => rfl
    | cons q ps =>
      have htext : pipelinesText ([] :: q :: ps) = "; " ++ pipelinesText (q :: ps) := rfl
      rw [htext, Scan.found_append, isGlue_semicolon.found, ih _ hps]
      rfl

theorem found_pipelinesText {ps : List (List Text)} (hq : ∀ u ∈ ps.flatten, Scan.init.found u = [])
    (hr : ∀ u ∈ ps.flatten.dropLast, (Scan.init.after u).ready = true) :
    Scan.init.found (pipelinesText ps) = [] := by
  induction ps with
  | nil => rfl
  | cons p ps ih =>
    rw [List.flatten_cons] at hq hr
    have hqp : ∀ u ∈ p, Scan.init.found u = [] := fun u hu => hq u (List.mem_append_left _ hu)
    have hqs : ∀ u ∈ ps.flatten, Scan.init.found u = [] :=
      fun u hu => hq u (List.mem_append_right _ hu)
    cases ps with
    | nil => exact isGlue_pipe.found_join hqp (by simpa using hr)
    | cons q ps =>
      have htext : pipelinesText (p :: q :: ps) =
          Text.join " | " p ++ "; " ++ pipelinesText (q :: ps) := rfl
      by_cases hnil : (q :: ps).flatten = []
      · -- Only separators follow, so the last stage of `p` need not be ready.
        rw [hnil, List.append_nil] at hr
        rw [htext, List.append_assoc, Scan.found_append, Scan.found_append, isGlue_semicolon.found,
          found_pipelinesText_of_flatten_eq_nil _ hnil, isGlue_pipe.found_join hqp hr]
        rfl
      · rw [List.dropLast_append_of_ne_nil hnil] at hr
        have hrp : ∀ u ∈ p, (Scan.init.after u).ready = true :=
          fun u hu => hr u (List.mem_append_left _ hu)
        rw [htext, isGlue_semicolon.found_append (isGlue_pipe.ready_join hrp),
          isGlue_pipe.found_join hqp fun u hu => hrp u ((List.dropLast_sublist _).subset hu),
          ih hqs fun u hu => hr u (List.mem_append_right _ hu)]
        rfl

/-! ## Pieces of a rebuilt line -/

/-- A connector, or the converted stages between connectors. -/
inductive Piece where
  /-- A connector. -/
  | connector (c : Connector)
  /-- Converted stages, pipeline by pipeline. -/
  | pipelines (ps : List (List Text))

namespace Piece

/-- How a piece is written. -/
def text : Piece → Text
  | connector c => " " ++ c.text ++ " "
  | pipelines ps => pipelinesText ps

/-- The stages of a piece. -/
def stages : Piece → List Text
  | connector _ => []
  | pipelines ps => ps.flatten

/-- The connector that a piece is. -/
def connector? : Piece → Option Connector
  | connector c => some c
  | pipelines _ => none

/-- The stages with a stage or a connector behind them. -/
def inner : List Piece → List Text
  | [] => []
  | connector _ :: rest => inner rest
  | pipelines ps :: rest => if rest.isEmpty then ps.flatten.dropLast else ps.flatten ++ inner rest

end Piece

/-- No two neighbours are stages. -/
abbrev Alternating (pieces : List Piece) : Prop :=
  pieces.IsChain fun p p' => p.connector?.isSome = true ∨ p'.connector?.isSome = true

/-- Quiet stages that are ready where something follows show the connectors between them. -/
theorem found_pieces {pieces : List Piece} (hc : Alternating pieces)
    (hq : ∀ u ∈ pieces.flatMap Piece.stages, Scan.init.found u = [])
    (hr : ∀ u ∈ Piece.inner pieces, (Scan.init.after u).ready = true) :
    Scan.init.found (pieces.flatMap Piece.text) = pieces.filterMap Piece.connector? := by
  induction pieces with
  | nil => rfl
  | cons piece rest ih =>
    obtain ⟨hnext, htail⟩ := List.isChain_cons.mp hc
    rw [List.flatMap_cons] at hq
    have hrest := ih htail fun u hu => hq u (List.mem_append_right _ hu)
    cases piece with
    | connector c =>
      obtain ⟨hfound, hafter⟩ := Scan.connector_of_ready Scan.ready_init c
      rw [List.flatMap_cons, Piece.text, Scan.found_append, hfound, hafter, hrest hr]
      rfl
    | pipelines ps =>
      have hqp : ∀ u ∈ ps.flatten, Scan.init.found u = [] :=
        fun u hu => hq u (List.mem_append_left _ hu)
      cases rest with
      | nil =>
        rw [List.flatMap_cons, List.flatMap_nil, List.append_nil]
        exact found_pipelinesText hqp hr
      | cons next rest =>
        have hrp : ∀ u ∈ ps.flatten, (Scan.init.after u).ready = true :=
          fun u hu => hr u (List.mem_append_left _ hu)
        cases next with
        | pipelines qs =>
          have hbad := hnext _ rfl
          simp [Piece.connector?] at hbad
        | connector c =>
          -- The connector brings the reader back to the initial state, before the rest.
          obtain ⟨hfound, hafter⟩ := Scan.connector_of_ready (ready_pipelinesText hrp) c
          obtain ⟨hfound', hafter'⟩ := Scan.connector_of_ready Scan.ready_init c
          have hrest := hrest fun u hu => hr u (List.mem_append_right _ hu)
          rw [List.flatMap_cons, Piece.text, Scan.found_append, hfound', hafter'] at hrest
          rw [List.flatMap_cons, List.flatMap_cons, Piece.text, Piece.text, Scan.found_append,
            Scan.found_append, hfound, hafter, hrest,
            found_pipelinesText hqp fun u hu => hrp u ((List.dropLast_sublist _).subset hu)]
          rfl

/-! ## Blanks at the front of the line -/

namespace Piece

/-- Without the blanks at the front of the first stage, if the line starts with one. -/
def trimFirst : List Piece → List Piece
  | pipelines ((u :: us) :: ps) :: rest => pipelines ((trimFront u :: us) :: ps) :: rest
  | pieces => pieces

/-- What stands behind a stage starts plainly. -/
theorem startsPlain_of_connector {pieces : List Piece}
    (h : ∀ piece ∈ pieces.head?, piece.connector?.isSome = true) :
    StartsPlain (pieces.flatMap text) := by
  cases pieces with
  | nil => exact .nil
  | cons piece rest =>
    cases piece with
    | pipelines ps => cases h _ rfl
    | connector c => cases c <;> exact .space (by decide) _

theorem text_pipelines (u : Text) (us : List Text) (ps : List (List Text)) :
    text (pipelines ((u :: us) :: ps)) =
      u ++ (us.flatMap ((" | " : Text) ++ ·) ++
        (ps.map (Text.join " | ")).flatMap (("; " : Text) ++ ·)) := by
  rw [text, pipelinesText, List.map_cons, Text.join_cons, Text.join_cons, List.append_assoc]

/-- Trimming the text of a line trims its first stage. -/
theorem found_trimFront_text {pieces : List Piece} (hc : Alternating pieces) :
    Scan.init.found (trimFront (pieces.flatMap text)) =
      Scan.init.found ((trimFirst pieces).flatMap text) := by
  cases pieces with
  | nil => rfl
  | cons piece rest =>
    obtain ⟨hnext, -⟩ := List.isChain_cons.mp hc
    cases piece with
    | connector c => exact (startsPlain_of_connector (by simp [connector?])).found_trimFront
    | pipelines ps =>
      have hrest : StartsPlain (rest.flatMap text) :=
        startsPlain_of_connector fun piece hp =>
          (hnext piece hp).resolve_left (by simp [connector?])
      cases ps with
      | nil => exact hrest.found_trimFront
      | cons p ps =>
        cases p with
        | nil =>
          refine StartsPlain.found_trimFront ?_
          cases ps with
          | nil => exact hrest
          | cons q ps => exact .cons (by decide) _
        | cons u us =>
          rw [trimFirst, List.flatMap_cons, List.flatMap_cons, text_pipelines, text_pipelines]
          simp only [List.append_assoc]
          refine StartsPlain.found_trimFront_append ?_ u
          cases us with
          | cons v us => exact .space (by decide) _
          | nil =>
            cases ps with
            | cons q ps => exact .cons (by decide) _
            | nil => exact hrest

theorem alternating_trimFirst {pieces : List Piece} (h : Alternating pieces) :
    Alternating (trimFirst pieces) := by
  unfold trimFirst
  split
  · obtain ⟨hnext, htail⟩ := List.isChain_cons.mp h
    exact List.isChain_cons.mpr ⟨hnext, htail⟩
  · exact h

theorem connectors_trimFirst (pieces : List Piece) :
    (trimFirst pieces).filterMap connector? = pieces.filterMap connector? := by
  unfold trimFirst
  split <;> rfl

theorem stages_trimFirst {pieces : List Piece} {u : Text}
    (h : u ∈ (trimFirst pieces).flatMap stages) :
    ∃ v ∈ pieces.flatMap stages, u = v ∨ u = trimFront v := by
  unfold trimFirst at h
  split at h
  · rename_i v us ps rest
    simp only [List.flatMap_cons, stages, List.flatten_cons, List.cons_append, List.mem_cons] at h ⊢
    rcases h with rfl | h
    · exact ⟨v, Or.inl rfl, Or.inr rfl⟩
    · exact ⟨u, Or.inr h, Or.inl rfl⟩
  · exact ⟨u, h, Or.inl rfl⟩

theorem inner_trimFirst {pieces : List Piece} {u : Text} (h : u ∈ inner (trimFirst pieces)) :
    ∃ v ∈ inner pieces, u = v ∨ u = trimFront v := by
  unfold trimFirst at h
  split at h
  · rename_i v us ps rest
    simp only [inner, List.flatten_cons, List.cons_append] at h ⊢
    split at h
    · rename_i hrest
      rw [if_pos hrest]
      cases hs : us ++ ps.flatten with
      | nil => rw [hs] at h; simp at h
      | cons w ws =>
        rw [hs, List.dropLast_cons_cons, List.mem_cons] at h
        rw [List.dropLast_cons_cons]
        rcases h with rfl | h
        · exact ⟨v, List.mem_cons_self, Or.inr rfl⟩
        · exact ⟨u, List.mem_cons_of_mem _ h, Or.inl rfl⟩
    · rename_i hrest
      rw [if_neg hrest]
      rcases List.mem_cons.mp h with rfl | h
      · exact ⟨v, List.mem_cons_self, Or.inr rfl⟩
      · exact ⟨u, List.mem_cons_of_mem _ h, Or.inl rfl⟩
  · exact ⟨u, h, Or.inl rfl⟩

end Piece

/-! ## Rebuilding a line -/

namespace Converter

variable (t : Converter)

/-- A segment with its stages converted. -/
def piece : Segment → Piece
  | .connector c => .connector c
  | .commands text => .pipelines ((stagesOf text).map (·.map t.stageConverter.convertStage))

theorem text_piece (segment : Segment) : (t.piece segment).text = t.rebuildSegment segment := by
  cases segment with
  | connector c => rfl
  | commands text =>
    simp only [piece, Piece.text, pipelinesText, rebuildSegment, List.map_map]
    rfl

theorem connector?_piece (segment : Segment) :
    (t.piece segment).connector? = segment.connector? := by
  cases segment <;> rfl

theorem alternating_pieces (line : Text) : Alternating ((splitConnectors line).map t.piece) := by
  refine List.isChain_map_of_isChain t.piece (fun s s' h => ?_) (isChain_splitConnectors line)
  rw [connector?_piece, connector?_piece]
  cases s <;> cases s' <;> simp_all [Segment.isConnector, Segment.connector?]

theorem stages_pieces (line : Text) :
    ((splitConnectors line).map t.piece).flatMap Piece.stages =
      (stages line).map t.stageConverter.convertStage := by
  rw [stages, List.flatMap_map, List.map_flatMap]
  congr 1
  funext segment
  cases segment with
  | connector c => rfl
  | commands text => simp [piece, Piece.stages, List.map_flatten]

theorem inner_pieces (segments : List Segment) :
    Piece.inner (segments.map t.piece) =
      (innerStages segments).map t.stageConverter.convertStage := by
  induction segments with
  | nil => rfl
  | cons segment rest ih =>
    cases segment with
    | connector c => exact ih
    | commands text =>
      rw [List.map_cons, piece, Piece.inner, innerStages, List.isEmpty_map, ih]
      split <;> simp [List.map_flatten, List.map_dropLast]

/-- Reading a rebuilt line finds the connectors of the line, if its converted stages are quiet and
carry. -/
theorem connectorsOf_rebuild {line : Text}
    (hq : ∀ s ∈ stages line, Quiet (t.stageConverter.convertStage s))
    (hr : ∀ s ∈ innerStages (splitConnectors line), Carries (t.stageConverter.convertStage s)) :
    connectorsOf (t.rebuild line) = connectorsOf line := by
  have htext : (splitConnectors line).flatMap t.rebuildSegment =
      ((splitConnectors line).map t.piece).flatMap Piece.text := by
    rw [List.flatMap_map]
    simp only [text_piece]
  have hc := t.alternating_pieces line
  rw [rebuild, connectorsOf_trim, connectorsOf_eq_found, htext, Piece.found_trimFront_text hc,
    found_pieces (Piece.alternating_trimFirst hc), Piece.connectors_trimFirst, List.filterMap_map]
  · simp only [Function.comp_def, connector?_piece]
    rfl
  · intro u hu
    obtain ⟨v, hv, huv⟩ := Piece.stages_trimFirst hu
    rw [stages_pieces] at hv
    obtain ⟨s, hs, rfl⟩ := List.mem_map.mp hv
    rw [← connectorsOf_eq_found]
    rcases huv with rfl | rfl
    · exact (hq s hs).whole
    · exact (hq s hs).trimmed
  · intro u hu
    obtain ⟨v, hv, huv⟩ := Piece.inner_trimFirst hu
    rw [inner_pieces] at hv
    obtain ⟨s, hs, rfl⟩ := List.mem_map.mp hv
    rw [← carries_iff_ready]
    rcases huv with rfl | rfl
    · exact (hr s hs).whole
    · exact (hr s hs).trimmed

end Converter

/-! ## Lines of stages with connectors between them -/

/-- A line that is one stage. -/
structure IsStage (s : Text) : Prop where
  trimmed : Text.Trimmed s
  ne_nil : s ≠ []
  connectors : connectorsOf s = []
  stages : stagesOf s = [[s]]

theorem scan_eq_nil {s : Scan} {t : Text} (h : s.found t = []) (pos : Nat) : scan s pos t = [] := by
  induction t generalizing s pos with
  | nil => rfl
  | cons c t ih =>
    rw [Scan.found, List.append_eq_nil_iff, Option.toList_eq_nil_iff] at h
    rw [scan_cons_of_found_none h.1, ih h.2]

theorem scan_and_of_ready {s : Scan} (h : s.ready = true) (pos : Nat) :
    scan s pos [' ', '&', '&', ' '] = [⟨['&', '&'], pos + 1, pos + 3, none⟩] := by
  rw [scan_cons_of_found_none (found?_of_ne (by decide) (by decide))]
  rcases Scan.step_space_of_ready h with hs | hs <;> rw [hs] <;> rfl

theorem piecesOf_congr {a a' : Text} (h : trim a = trim a') (cuts : List (Token × Text)) :
    piecesOf a cuts = piecesOf a' cuts := by
  cases cuts <;> simp [piecesOf, h]

theorem trim_eq_self {s : Text} (h : Text.Trimmed s) : trim s = s := by
  have htrim := Text.trim_of_trimmed Text.blank_nil h Text.blank_nil
  rwa [List.nil_append, List.append_nil] at htrim

/-- Where the connectors stand in stages joined by `&&`. -/
theorem exists_cuts_join (pos : Nat) (u : Text) (us : List Text) (hs : ∀ v ∈ u :: us, IsStage v)
    (hr : ∀ v ∈ (u :: us).dropLast, (Scan.init.after v).ready = true) :
    ∃ a cuts, ofCuts a cuts = Text.join [' ', '&', '&', ' '] (u :: us) ∧ Placed pos a cuts ∧
      cuts.map Prod.fst = scan .init pos (Text.join [' ', '&', '&', ' '] (u :: us)) ∧
      (piecesOf a cuts).flatMap Chunk.segments =
        ((u :: us).map .commands).intersperse (.connector .and) := by
  induction us generalizing pos u with
  | nil =>
    have hu := hs u List.mem_cons_self
    have hfound : Scan.init.found u = [] := by rw [← connectorsOf_eq_found, hu.connectors]
    refine ⟨u, [], ofCuts_nil u, trivial, ?_, ?_⟩
    · exact (scan_eq_nil hfound pos).symm
    · simp [piecesOf, Chunk.segments, trim_eq_self hu.trimmed, hu.ne_nil]
  | cons v us ih =>
    have hu := hs u List.mem_cons_self
    have hready := hr u List.mem_cons_self
    have hfound : Scan.init.found u = [] := by rw [← connectorsOf_eq_found, hu.connectors]
    obtain ⟨a, cuts, ho, hp, hm, hsegs⟩ := ih (pos + Text.size u + 4) v
      (fun w hw => hs w (List.mem_cons_of_mem _ hw)) (fun w hw => hr w (List.mem_cons_of_mem _ hw))
    refine ⟨u ++ [' '], (⟨['&', '&'], pos + Text.size u + 1, pos + Text.size u + 3, none⟩,
      [' '] ++ a) :: cuts, ?_, ⟨?_, rfl, ?_⟩, ?_, ?_⟩
    · rw [ofCuts_cons, ofCuts_append_left, ho, Text.join]
      simp
    · rw [Text.size_append]
      rfl
    · have hsize : Text.size [' '] = 1 := rfl
      have hplace : pos + Text.size u + 4 + Text.size a =
          pos + Text.size u + 3 + Text.size ([' '] ++ a) := by
        rw [Text.size_append, hsize]
        omega
      exact hp.of_size hplace
    · rw [Text.join, List.append_assoc, scan_append, scan_append, scan_eq_nil hfound,
        scan_and_of_ready hready, List.map_cons, hm]
      have hafter := (Scan.connector_of_ready hready .and).2
      rw [and_glue] at hafter
      rw [hafter]
      rfl
    · have htrim : trim (u ++ [' ']) = u := by
        have htrim := Text.trim_of_trimmed Text.blank_nil hu.trimmed Text.blank_space
        rwa [List.nil_append] at htrim
      have hspace : trim ([' '] ++ a) = trim a := by
        rw [trim, Text.trimFront_blank_append Text.blank_space]
        rfl
      have hand : Connector.ofText? ['&', '&'] = some .and := rfl
      rw [piecesOf, List.flatMap_cons, piecesOf_congr hspace, hsegs, htrim]
      simp [Chunk.segments, hu.ne_nil, hand]

/-- Stages joined by `&&` are its segments. -/
theorem splitConnectors_join (u : Text) (us : List Text) (hs : ∀ v ∈ u :: us, IsStage v)
    (hr : ∀ v ∈ (u :: us).dropLast, (Scan.init.after v).ready = true) :
    splitConnectors (Text.join [' ', '&', '&', ' '] (u :: us)) =
      ((u :: us).map .commands).intersperse (.connector .and) := by
  obtain ⟨a, cuts, ho, hp, hm, hsegs⟩ := exists_cuts_join 0 u us hs hr
  have hchunks := chunks_ofCuts [] a cuts hp
  rw [splitConnectors, cutLine, tokenize, ← scan_start, ← hsegs]
  congr 1
  rw [List.nil_append, ho, hm] at hchunks
  exact hchunks

theorem trimmed_append {a b : Text} (ha : Text.Trimmed a) (hb : Text.Trimmed b) (ha' : a ≠ [])
    (hb' : b ≠ []) (x : Text) : Text.Trimmed (a ++ x ++ b) := by
  constructor
  · intro c hc
    exact ha.front c (by simpa [ha'] using hc)
  · intro c hc
    exact hb.back c (by simpa [List.getLast?_append, hb'] using hc)

theorem trimmed_join (sep u : Text) (us : List Text)
    (h : ∀ v ∈ u :: us, Text.Trimmed v ∧ v ≠ []) :
    Text.Trimmed (Text.join sep (u :: us)) ∧ Text.join sep (u :: us) ≠ [] := by
  induction us generalizing u with
  | nil => exact h u List.mem_cons_self
  | cons v us ih =>
    obtain ⟨hu, hne⟩ := h u List.mem_cons_self
    obtain ⟨hrest, hrest'⟩ := ih v fun w hw => h w (List.mem_cons_of_mem _ hw)
    exact ⟨trimmed_append hu hrest hne hrest' sep, by simp [Text.join, hne]⟩

/-! ## Stages that break a line -/

/-- A stage that is never converted: a group. -/
def groupStage : Text := ['(', 'x', ')']

theorem isStage_groupStage : IsStage groupStage :=
  ⟨⟨by decide, by decide⟩, by decide, by decide +kernel, by decide +kernel⟩

theorem ready_groupStage : (Scan.init.after groupStage).ready = true := by decide +kernel

/-- A group has no connector, whatever stands before it. -/
theorem found_groupStage (s : Scan) : s.found groupStage = [] := by
  simp only [groupStage]
  rw [Scan.found_cons_of_ne (by decide) (by decide), Scan.found_cons_of_ne (by decide) (by decide),
    Scan.found_cons_of_ne (by decide) (by decide)]
  rfl

/-- A connector behind a group counts, and reading starts anew behind it. -/
theorem found_trimFront_groupStage (v : Text) :
    Scan.init.found (trimFront (groupStage ++ [' ', '&', '&', ' '] ++ v)) =
      .and :: Scan.init.found v := by
  obtain ⟨hfound, hafter⟩ := Scan.connector_of_ready ready_groupStage .and
  rw [and_glue] at hfound hafter
  have hfront : Text.isBlank '(' = false := by decide
  rw [Text.trimFront_of_head (by simpa [groupStage] using hfront), List.append_assoc,
    Scan.found_append, Scan.found_append, found_groupStage, hfound, hafter]
  rfl

namespace Converter

variable (t : Converter)

theorem convertStage_groupStage : t.stageConverter.convertStage groupStage = groupStage := by
  have hgroup : isGrouped groupStage = true := by decide +kernel
  rw [StageConverter.convertStage, StageConverter.convertStageAt_eq, StageConverter.convertStage?,
    hgroup, Bool.or_true]
  rfl

theorem stages_join (u : Text) (us : List Text) (hs : ∀ v ∈ u :: us, IsStage v)
    (hr : ∀ v ∈ (u :: us).dropLast, (Scan.init.after v).ready = true) :
    stages (Text.join [' ', '&', '&', ' '] (u :: us)) = u :: us := by
  rw [stages, splitConnectors_join u us hs hr]
  clear hr
  induction us generalizing u with
  | nil => simp [(hs u List.mem_cons_self).stages]
  | cons v us ih =>
    have hrest := ih v fun w hw => hs w (List.mem_cons_of_mem _ hw)
    simp only [List.map_cons, List.intersperse_cons_cons, List.flatMap_cons] at hrest ⊢
    simp [(hs u List.mem_cons_self).stages, hrest]

theorem rebuild_join (u : Text) (us : List Text) (hs : ∀ v ∈ u :: us, IsStage v)
    (hr : ∀ v ∈ (u :: us).dropLast, (Scan.init.after v).ready = true) :
    t.rebuild (Text.join [' ', '&', '&', ' '] (u :: us)) =
      trim (Text.join [' ', '&', '&', ' '] ((u :: us).map t.stageConverter.convertStage)) := by
  rw [rebuild, splitConnectors_join u us hs hr]
  clear hr
  congr 1
  induction us generalizing u with
  | nil => simp [(hs u List.mem_cons_self).stages, rebuildSegment, Text.join]
  | cons v us ih =>
    have hrest := ih v fun w hw => hs w (List.mem_cons_of_mem _ hw)
    simp only [List.map_cons, List.intersperse_cons_cons, List.flatMap_cons] at hrest ⊢
    rw [hrest]
    simp [(hs u List.mem_cons_self).stages, rebuildSegment, Text.join]
    rfl

/-- A stage breaks a line: the rebuilt line has other connectors. -/
def Breaks (s : Text) : Prop :=
  ∃ line, trim line = line ∧ s ∈ stages line ∧ connectorsOf (t.rebuild line) ≠ connectorsOf line

/-- It is enough to join the stage with groups. -/
theorem breaks_of_join {s : Text} (u : Text) (us : List Text) (hmem : s ∈ u :: us)
    (hs : ∀ v ∈ u :: us, IsStage v)
    (hr : ∀ v ∈ (u :: us).dropLast, (Scan.init.after v).ready = true)
    (hne : Scan.init.found (trimFront
      (Text.join [' ', '&', '&', ' '] ((u :: us).map t.stageConverter.convertStage))) ≠
        List.replicate us.length .and) : t.Breaks s := by
  have hconn : connectorsOf (Text.join [' ', '&', '&', ' '] (u :: us)) =
      List.replicate us.length .and := by
    rw [connectorsOf, splitConnectors_join u us hs hr]
    clear hmem hs hr hne
    induction us generalizing u with
    | nil => rfl
    | cons v us ih =>
      have hand : Segment.connector? (.connector .and) = some .and := rfl
      rw [List.map_cons, List.map_cons, List.intersperse_cons_cons, List.filterMap_cons_none rfl,
        List.filterMap_cons_some hand, ← List.map_cons, ih v]
      rfl
  have htrimmed := trimmed_join [' ', '&', '&', ' '] u us
    fun v hv => ⟨(hs v hv).trimmed, (hs v hv).ne_nil⟩
  refine ⟨Text.join [' ', '&', '&', ' '] (u :: us), trim_eq_self htrimmed.1, ?_, ?_⟩
  · rw [stages_join u us hs hr]
    exact hmem
  · rw [rebuild_join t u us hs hr, connectorsOf_trim, connectorsOf_eq_found, hconn]
    exact hne

/-- A stage with a connector of its own breaks a line, alone or behind a group. -/
theorem breaks_of_not_quiet {s : Text} (hs : IsStage s)
    (h : ¬Quiet (t.stageConverter.convertStage s)) : t.Breaks s := by
  by_cases htrim : connectorsOf (trimFront (t.stageConverter.convertStage s)) = []
  · have hwhole : connectorsOf (t.stageConverter.convertStage s) ≠ [] := fun hw => h ⟨hw, htrim⟩
    refine t.breaks_of_join groupStage [s] (by simp) ?_ (by simpa using ready_groupStage) ?_
    · simpa using ⟨isStage_groupStage, hs⟩
    · rw [connectorsOf_eq_found] at hwhole
      rw [List.map_cons, convertStage_groupStage, List.map_cons, List.map_nil, Text.join, Text.join,
        found_trimFront_groupStage]
      simpa using hwhole
  · refine t.breaks_of_join s [] (by simp) (by simpa using hs) (by simp) ?_
    rw [connectorsOf_eq_found] at htrim
    exact htrim

/-- A stage that hides what stands behind it breaks a line with a group behind it. -/
theorem breaks_of_not_carries {s : Text} (hs : IsStage s) (hc : Carries s)
    (hq : Quiet (t.stageConverter.convertStage s))
    (h : ¬Carries (t.stageConverter.convertStage s)) : t.Breaks s := by
  have hready : (Scan.init.after s).ready = true := (carries_iff_ready s).mp hc.whole
  generalize hv : t.stageConverter.convertStage s = v at hq h
  -- Not ready means that the connector behind `v` is lost, in either form of `v`.
  have hlost : ∀ w, Scan.init.found w = [] →
      connectorsOf (w ++ " && ") ≠ connectorsOf w ++ [.and] →
      Scan.init.found (w ++ [' ', '&', '&', ' '] ++ groupStage) = [] := by
    intro w hw hne
    rw [Ne, carries_iff_ready, Bool.not_eq_true] at hne
    rw [Scan.found_append, Scan.found_append, hw, Scan.found_connector_of_not_ready hne,
      found_groupStage]
    rfl
  by_cases htrim : connectorsOf (trimFront v ++ " && ") = connectorsOf (trimFront v) ++ [.and]
  · have hwhole : connectorsOf (v ++ " && ") ≠ connectorsOf v ++ [.and] := fun hw => h ⟨hw, htrim⟩
    refine t.breaks_of_join groupStage [s, groupStage] (by simp) ?_ ?_ ?_
    · simpa using ⟨isStage_groupStage, hs, isStage_groupStage⟩
    · simpa using ⟨ready_groupStage, hready⟩
    · have hquiet : Scan.init.found v = [] := by rw [← connectorsOf_eq_found, hq.whole]
      rw [List.map_cons, List.map_cons, List.map_cons, convertStage_groupStage, hv, List.map_nil,
        Text.join, Text.join, Text.join, found_trimFront_groupStage, hlost v hquiet hwhole]
      simp [List.replicate]
  · refine t.breaks_of_join s [groupStage] (by simp) ?_ (by simpa using hready) ?_
    · simpa using ⟨hs, isStage_groupStage⟩
    · have hquiet : Scan.init.found (trimFront v) = [] := by
        rw [← connectorsOf_eq_found, hq.trimmed]
      have hplain : StartsPlain ([' ', '&', '&', ' '] ++ groupStage) := .space (by decide) _
      rw [List.map_cons, List.map_cons, convertStage_groupStage, hv, List.map_nil, Text.join,
        Text.join, List.append_assoc, hplain.found_trimFront_append, ← List.append_assoc,
        hlost _ hquiet htrim]
      simp

/-- **Connectors of a rebuilt line.** For all rules and targets: a rebuilt line has the connectors
of the line, in the same order, if all white space of the line separates tokens, and if the texts of
the mappings and the words of the converted stages can stand in a command. Of stages that stay as
they are nothing is asked. And no stage is exempt: one that is converted to text with a connector
breaks a line, and so does one that carried and no longer does. -/
theorem rebuild_keeps_connectors :
    (∀ command, (∀ c ∈ trim command, Text.isBlank c = true → isGap c = true) → t.rules.Legible →
      (∀ s ∈ stages (trim command), t.stageConverter.convertStage s ≠ s → Legible s) →
      connectorsOf (t.rebuild (trim command)) = connectorsOf (trim command)) ∧
    ∀ s, IsStage s →
      ¬Quiet (t.stageConverter.convertStage s) ∨
        Carries s ∧ ¬Carries (t.stageConverter.convertStage s) → t.Breaks s := by
  refine ⟨fun command hgaps hr hs => t.connectorsOf_rebuild (fun s h => ?_) fun s h => ?_,
    fun s hs h => ?_⟩
  · exact quiet_convertStage hr (hs s h) (quiet_of_mem_stages hgaps h)
  · exact carries_convertStage hr (hs s (mem_stages_of_mem_innerStages h))
      (carries_of_mem_innerStages hgaps h)
  · by_cases hq : Quiet (t.stageConverter.convertStage s)
    · obtain ⟨hc, hn⟩ := h.resolve_left (not_not.mpr hq)
      exact t.breaks_of_not_carries hs hc hq hn
    · exact t.breaks_of_not_quiet hs hq

end Converter

/-- The built-in rules, for a PowerShell without connectors. -/
def legacyConverter : Converter := ⟨true, .powerShell (some 5), .builtin⟩

/-- A mapping of a user. -/
def shredMapping : Mapping := { name := "shred", verb := "Clear-Content" }

/-- The built-in rules and the mapping of a user. -/
def overlaidConverter : Converter := ⟨true, .powerShell (some 5), .withOverlay [shredMapping]⟩

/-- Quoted connectors, redirections, commands in commands, and stages that are not converted. -/
def mixedStages : Text :=
  "shred 'a && b' 2>/dev/null && ls \\&\\& |& xargs -I @ grep \"x || y\" @ || (other \"; find"

/-- A value in double quotes, with a protected quote and `&&` inside. -/
def exportStage : Text := "export A=\"$B\\\" && c\""

theorem rebuild_keeps_mixedStages :
    ((∀ c ∈ trim mixedStages, Text.isBlank c = true → isGap c = true) ∧
      overlaidConverter.rules.Legible ∧
      (∀ s ∈ Converter.stages (trim mixedStages),
        overlaidConverter.stageConverter.convertStage s ≠ s → Legible s) ∧
      overlaidConverter.rebuild (trim mixedStages) =
        "Clear-Content 'a && b' 2>$null && Get-ChildItem \\& \\& 2>&1 | ForEach-Object ".toList ++
          "\x7b Select-String -Pattern 'x \\|\\| y' -CaseSensitive -Path $_ \x7d".toList ++
          " || (other \"; find".toList ∧
      connectorsOf (trim mixedStages) = [.and, .or] ∧
      connectorsOf (overlaidConverter.rebuild (trim mixedStages)) =
        connectorsOf (trim mixedStages)) ∧
    IsStage exportStage ∧ ¬Quiet (overlaidConverter.stageConverter.convertStage exportStage) ∧
      overlaidConverter.Breaks exportStage := by
  have hgaps : ∀ c ∈ trim mixedStages, Text.isBlank c = true → isGap c = true := by decide +kernel
  have hoverlay : ∀ m ∈ [shredMapping], m.Legible := by decide +kernel
  have hr : overlaidConverter.rules.Legible := by
    simp only [overlaidConverter]
    exact RuleTable.legible_withOverlay hoverlay
  have hs : ∀ s ∈ Converter.stages (trim mixedStages),
      overlaidConverter.stageConverter.convertStage s ≠ s → Legible s := by decide +kernel
  have hstage : IsStage exportStage :=
    ⟨⟨by decide +kernel, by decide +kernel⟩, by decide +kernel, by decide +kernel,
      by decide +kernel⟩
  have hn : ¬Quiet (overlaidConverter.stageConverter.convertStage exportStage) := by decide +kernel
  obtain ⟨hkeeps, hbreaks⟩ := overlaidConverter.rebuild_keeps_connectors
  refine ⟨⟨hgaps, hr, hs, ?_, ?_, hkeeps _ hgaps hr hs⟩, hstage, hn, hbreaks _ hstage (Or.inl hn)⟩
  · decide +kernel
  · decide +kernel

/-- A no-break space in front of a protected parenthesis. It is white space but separates no tokens,
so the backtick stands in a word and protects nothing. -/
def blankLine : Text := "x;\u00a0\x60( && y"

/-- The line `export A="$B\" && c"` has no connector. The line rebuilt from it has one: a protected
quote is converted to a backtick and a quote, which closes the value when the line is read again.
White space that separates no tokens can do the same where no stage is converted: without it, the
backtick at the front of a stage protects the parenthesis that opened a group. -/
theorem rebuild_shows_connector :
    (connectorsOf exportStage = [] ∧
      legacyConverter.rebuild exportStage = "$env:A = \"$\x7benv:B\x7d\x60\" && c\"".toList ∧
      connectorsOf (legacyConverter.rebuild exportStage) = [.and]) ∧
    connectorsOf blankLine = [] ∧
      legacyConverter.rebuild blankLine = "x; \x60( && y".toList ∧
      connectorsOf (legacyConverter.rebuild blankLine) = [.and] := by
  refine ⟨⟨?_, ?_, ?_⟩, ?_, ?_, ?_⟩ <;> decide +kernel

end CrossShell
