import CrossShell.Proofs.Chain.Statement
import CrossShell.Proofs.Line.Pieces
import Mathlib.Data.List.Chain

/-!
# Emulated chains short-circuit

A line that is cut at its connectors is a chain: commands, and between neighbours one or more
connectors, of which the last one counts.

* `exists_chain`: the segments of a line with a command in it are a chain.
* `links_segments`: the links of a chain are guarded by its last connectors.
* `emulate_eq_chain`: the emulated line is the text of the guarded program of the chain, and that
  program does what short-circuit evaluation of the chain does.
-/

namespace CrossShell

/-! ## Segments -/

/-- The commands of segments. -/
def commandTexts (segments : List Segment) : List Text :=
  segments.filterMap fun
    | .commands t => some t
    | .connector _ => none

/-- Whether a segment is a connector. -/
def Segment.isConnector : Segment → Bool
  | .commands _ => false
  | .connector _ => true

/-- Between two commands of a line stands a connector. -/
theorem isChain_segments_piecesOf {a : Text} {cuts : List (Token × Text)}
    (h : ∀ cut ∈ cuts, (Connector.ofText? cut.1.value).isSome = true) :
    ((piecesOf a cuts).flatMap Chunk.segments).IsChain
      fun s s' => s.isConnector = true ∨ s'.isConnector = true := by
  induction cuts generalizing a with
  | nil =>
    simp only [piecesOf, List.flatMap_cons, List.flatMap_nil, Chunk.segments]
    split <;> simp
  | cons cut cuts ih =>
    obtain ⟨t, b⟩ := cut
    obtain ⟨k, hk⟩ := Option.isSome_iff_exists.mp (h _ List.mem_cons_self)
    have hrest := ih (a := b) fun cut hc => h cut (List.mem_cons_of_mem _ hc)
    simp only [piecesOf, List.flatMap_cons, Chunk.segments, Option.bind_some, hk]
    have hcons : (Segment.connector k :: (piecesOf b cuts).flatMap Chunk.segments).IsChain
        fun s s' => s.isConnector = true ∨ s'.isConnector = true :=
      List.isChain_cons.mpr ⟨fun _ _ => Or.inl rfl, hrest⟩
    split
    · simpa [Chunk.segments] using hcons
    · exact List.isChain_cons.mpr ⟨fun s hs => by simp at hs; exact Or.inr (hs ▸ rfl), hcons⟩

theorem isChain_splitConnectors (line : Text) :
    (splitConnectors line).IsChain fun s s' => s.isConnector = true ∨ s'.isConnector = true := by
  obtain ⟨a, cuts, -, -, hm, hc⟩ := exists_cutLine_eq connectorCutter () line
  rw [splitConnectors, hc]
  refine isChain_segments_piecesOf fun cut hcut => ?_
  have hmem : cut.1 ∈ separators connectorCutter .top () (tokenize line) := by
    rw [← hm]; exact List.mem_map_of_mem hcut
  have htest := separators_ofTest_test hmem
  simp only [Bool.and_eq_true] at htest
  exact htest.2

/-! ## Chains -/

/-- Commands behind a connector. Further connectors may stand before it, which count for nothing. -/
structure ChainLink where
  /-- The connectors before the last. -/
  skipped : List Connector
  /-- The last connector. -/
  guard : Connector
  /-- The commands. -/
  text : Text

/-- A line as a chain of commands. -/
structure Chain where
  /-- Connectors before the first commands. -/
  lead : List Connector
  /-- The first commands. -/
  first : Text
  /-- The commands behind connectors. -/
  rest : List ChainLink
  /-- Connectors behind the last commands. -/
  trail : List Connector

/-- The segments of a link. -/
def ChainLink.segments (link : ChainLink) : List Segment :=
  link.skipped.map .connector ++ [.connector link.guard, .commands link.text]

namespace Chain

/-- The segments of a chain. -/
def segments (chain : Chain) : List Segment :=
  chain.lead.map .connector ++
    .commands chain.first :: (chain.rest.flatMap ChainLink.segments ++
      chain.trail.map .connector)

/-- The chain as commands joined by its last connectors. -/
def andOr (chain : Chain) : AndOr Text :=
  .ofChain chain.first (chain.rest.map fun link => (link.guard, link.text))

/-- The chain as guarded statements. -/
def program (chain : Chain) : List (Statement Text) :=
  guardedProgram [chain.first] (chain.rest.map fun link => (link.guard, [link.text]))

theorem commandTexts_segments (chain : Chain) :
    commandTexts chain.segments = chain.first :: chain.rest.map ChainLink.text := by
  have hconn : ∀ ks : List Connector, commandTexts (ks.map .connector) = [] := by
    intro ks
    simp [commandTexts, List.filterMap_map]
  have hrest : ∀ rest : List ChainLink,
      commandTexts (rest.flatMap ChainLink.segments) = rest.map ChainLink.text := by
    intro rest
    induction rest with
    | nil => rfl
    | cons link rest ih =>
      simp only [commandTexts] at hconn ih ⊢
      simp [ChainLink.segments, ih]
  simp only [commandTexts] at hconn hrest ⊢
  rw [segments, List.filterMap_append, hconn, List.filterMap_cons]
  simp [hconn, hrest]

end Chain

/-- Segments of which no two neighbours are commands are connectors only, or a chain. -/
theorem exists_chain_of_isChain {segments : List Segment}
    (h : segments.IsChain fun s s' => s.isConnector = true ∨ s'.isConnector = true) :
    (∃ ks : List Connector, segments = ks.map .connector) ∨
      ∃ chain : Chain, chain.segments = segments := by
  induction segments with
  | nil => exact Or.inl ⟨[], rfl⟩
  | cons s segments ih =>
    obtain ⟨hnext, htail⟩ := List.isChain_cons.mp h
    cases s with
    | connector k =>
      rcases ih htail with ⟨ks, rfl⟩ | ⟨chain, rfl⟩
      · exact Or.inl ⟨k :: ks, rfl⟩
      · exact Or.inr ⟨{ chain with lead := k :: chain.lead }, rfl⟩
    | commands t =>
      right
      rcases ih htail with ⟨ks, rfl⟩ | ⟨⟨lead, first, rest, trail⟩, rfl⟩
      · exact ⟨⟨[], t, [], ks⟩, rfl⟩
      · -- The chain behind `t` cannot start with its commands, so it leads with connectors.
        rcases List.eq_nil_or_concat lead with rfl | ⟨skipped, guard, rfl⟩
        · have hbad := hnext _ rfl
          simp [Segment.isConnector] at hbad
        · refine ⟨⟨[], t, ⟨skipped, guard, first⟩ :: rest, trail⟩, ?_⟩
          simp [Chain.segments, ChainLink.segments]

/-- A line with a command in it is a chain. -/
theorem exists_chain {line : Text} (h : commandTexts (splitConnectors line) ≠ []) :
    ∃ chain : Chain, chain.segments = splitConnectors line := by
  rcases exists_chain_of_isChain (isChain_splitConnectors line) with ⟨ks, hk⟩ | hchain
  · rw [hk] at h
    simp [commandTexts, List.filterMap_map] at h
  · exact hchain

/-! ## Links -/

theorem linksFrom_connectors (started : Bool) (pending : Option Connector) (ks : List Connector)
    (segments : List Segment) :
    linksFrom started pending (ks.map .connector ++ segments) =
      linksFrom started (ks.getLast?.or pending) segments := by
  induction ks generalizing pending with
  | nil => rfl
  | cons k ks ih =>
    rw [List.map_cons, List.cons_append, linksFrom, ih, List.getLast?_cons]
    cases ks.getLast? <;> rfl

theorem linksFrom_rest (pending : Option Connector) (rest : List ChainLink)
    (trail : List Connector) :
    linksFrom true pending (rest.flatMap ChainLink.segments ++ trail.map .connector) =
      rest.map fun link => ⟨some link.guard, link.text⟩ := by
  induction rest generalizing pending with
  | nil =>
    have h := linksFrom_connectors true pending trail []
    rw [List.append_nil] at h
    rw [List.flatMap_nil, List.nil_append, h]
    rfl
  | cons link rest ih =>
    have hassoc : (link :: rest).flatMap ChainLink.segments ++ trail.map .connector =
        (link.skipped ++ [link.guard]).map Segment.connector ++
          .commands link.text :: (rest.flatMap ChainLink.segments ++ trail.map .connector) := by
      simp [ChainLink.segments]
    rw [hassoc, linksFrom_connectors, linksFrom, ih]
    simp

/-- The links of a chain: the first is free, the others are guarded by their last connector. -/
theorem links_segments (chain : Chain) :
    links chain.segments =
      ⟨none, chain.first⟩ :: chain.rest.map fun link => ⟨some link.guard, link.text⟩ := by
  rw [links, Chain.segments, linksFrom_connectors, linksFrom, linksFrom_rest]

/-! ## The text of the statements -/

/-- A guarded link is a guarded block with a separator before it. -/
theorem guarded_some (k : Connector) (t body : Text) :
    Link.guarded ⟨some k, t⟩ body = "; " ++ ("if (" ++ k.test ++ ") \x7b " ++ body ++ " \x7d") := by
  cases k <;> rfl

theorem join_command_record (t : Text) :
    Text.join "; " ([Step.command t, .record].map (Step.text id)) = t ++ recordStatus := by
  rw [List.map_cons, Text.join_cons, ← separator_append_record (id : Text → Text)]
  simp only [List.map_cons, List.map_nil, List.flatMap_cons, List.flatMap_nil, List.append_nil,
    Step.text_command, id]

theorem renderRest_eq (rest : List (Connector × Text)) :
    renderRest (rest.map fun link => ⟨some link.1, link.2⟩) =
      ((guardedBlocks (rest.map fun link => (link.1, [link.2]))).map (Statement.text id)).flatMap
        (("; " : Text) ++ ·) := by
  induction rest with
  | nil => rfl
  | cons link rest ih =>
    obtain ⟨k, t⟩ := link
    cases rest with
    | nil =>
      simp only [List.map_cons, List.map_nil, renderRest, guardedBlocks, List.flatMap_cons,
        List.flatMap_nil, List.append_nil, guarded_some, Statement.text_guarded, Text.join,
        Step.text_command, id]
    | cons next rest =>
      simp only [List.map_cons, List.map_nil, renderRest, guardedBlocks, List.flatMap_cons,
        List.singleton_append, guarded_some, Statement.text_guarded] at ih ⊢
      rw [ih, ← join_command_record]
      rfl

theorem renderLinks_eq (first : Text) (rest : List (Connector × Text)) :
    renderLinks ⟨none, first⟩ (rest.map fun link => ⟨some link.1, link.2⟩) =
      programText id (guardedProgram [first] (rest.map fun link => (link.1, [link.2]))) := by
  rw [renderLinks, renderRest_eq, programText, guardedProgram]
  simp only [List.map_cons, List.map_nil, List.singleton_append, Text.join_cons,
    List.flatMap_cons, Statement.text_step, Step.text_command, separator_append_record, id,
    List.append_assoc]

/-- **Emulation short-circuits.** For a target without connectors, a line with two or more
commands between its connectors is a chain. The emulated line is the text of a first command, a
record of its status, and one guarded block for each further command. For all commands and states,
this program executes exactly what short-circuit evaluation of the chain executes, in the same order,
and leaves the same state, whatever `$?` and `$cmdxOk` were before. -/
theorem emulate_eq_chain (target : Target) (hn : target.nativeConnectors = false) (line : Text)
    (hc : 2 ≤ (commandTexts (splitConnectors line)).length) :
    ∃ chain : Chain, chain.segments = splitConnectors line ∧ chain.rest ≠ [] ∧
      emulate target line = programText id chain.program ∧
      ∀ (σ : Type) (exec : Text → σ → Bool × σ) (m : ProgramState Text σ),
        (runProgram exec m chain.program).run.executed = (chain.andOr.run exec m.run).executed ∧
        (runProgram exec m chain.program).run.state = (chain.andOr.run exec m.run).state := by
  obtain ⟨chain, hchain⟩ : ∃ chain : Chain, chain.segments = splitConnectors line :=
    exists_chain (by intro h; rw [h] at hc; simp at hc)
  rw [← hchain, chain.commandTexts_segments] at hc
  have hrest : chain.rest ≠ [] := by
    intro h
    rw [h] at hc
    simp at hc
  refine ⟨chain, hchain, hrest, ?_, ?_⟩
  · obtain ⟨link, rest, hr⟩ := List.exists_cons_of_ne_nil hrest
    have htext := renderLinks_eq chain.first (chain.rest.map fun link => (link.guard, link.text))
    simp only [List.map_map, Function.comp_def] at htext
    rw [Chain.program, ← htext, emulate, ← hchain, links_segments, hr]
    simp [hn]
  · intro σ exec m
    have hrun := runProgram_guardedProgram exec m [chain.first]
      (chain.rest.map fun link => (link.guard, [link.text])) (by simp)
    have heval := AndOr.run_ofChain exec m.run chain.first
      (chain.rest.map fun link => (link.guard, link.text))
    simp only [List.map_map, Function.comp_def] at heval
    rw [Chain.andOr, heval]
    exact hrun

theorem emulate_doubled_connectors :
    (Target.powerShell (some 5)).nativeConnectors = false ∧
      2 ≤ (commandTexts (splitConnectors "&& a && || b || c; d &&")).length ∧
      ∃ chain : Chain, chain.segments = splitConnectors "&& a && || b || c; d &&" ∧
        chain.rest ≠ [] ∧
        emulate (.powerShell (some 5)) "&& a && || b || c; d &&" = programText id chain.program ∧
        ∀ (σ : Type) (exec : Text → σ → Bool × σ) (m : ProgramState Text σ),
          (runProgram exec m chain.program).run.executed = (chain.andOr.run exec m.run).executed ∧
          (runProgram exec m chain.program).run.state = (chain.andOr.run exec m.run).state := by
  have hc : 2 ≤ (commandTexts (splitConnectors "&& a && || b || c; d &&")).length := by
    decide +kernel
  exact ⟨rfl, hc, emulate_eq_chain (.powerShell (some 5)) rfl _ hc⟩

end CrossShell
