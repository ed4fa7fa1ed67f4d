import CrossShell.Proofs.Chain.CommandLine
import CrossShell.Proofs.Chain.ShortCircuit
import CrossShell.Proofs.Text.Trim

/-!
# Emulation and the precedence of `;`

`Reads word line cl` says that a line joins the commands of `cl` by `;`, `&&` and `||` outside of
groups. The emulated line then spells the program of the groups of `cl`, so it keeps the meaning of
the line exactly if no `;` stands behind a connector.

* `Sequenced`: how things are written one after another, with `;` between them.
* `exists_groups_text`: the segments of a line spell its groups.
* `emulate_keeps_sequence_iff`: what the emulated line spells, and when it keeps the meaning.
* `emulate_drops_sequence`: `a && b; c` loses `c` if `a` fails.
-/

namespace CrossShell

open Text (Blank trim)

/-! ## Lines that join commands -/

/-- How a joint is written. -/
def Joint.text : Joint → Text
  | sequence => ";"
  | link k => k.text

/-- The joint that a text writes. -/
def Joint.ofText? (t : Text) : Option Joint :=
  if t = ";" then some .sequence else (Connector.ofText? t).map .link

/-- Cuts at unquoted `;`, `&&` and `||`. -/
def jointCutter : Cutter Unit := .ofTest fun t => t.quote.isNone && (Joint.ofText? t.value).isSome

theorem ofText?_text (k : Connector) : Connector.ofText? k.text = some k := by
  cases k <;> decide

theorem text_sequence : Joint.sequence.text = [';'] := rfl

theorem ofText?_sequence : Connector.ofText? Joint.sequence.text = none := by decide

theorem isSome_jointOfText? {t : Text} (h : (Connector.ofText? t).isSome = true) :
    (Joint.ofText? t).isSome = true := by
  unfold Joint.ofText?
  split
  · rfl
  · simpa using h

section

variable {α : Type} (word : α → Text)

/-- The chunks of a line that joins commands, with the first command `c`. -/
def jointChunks (c : α) : List (Joint × α) → List Chunk
  | [] => [⟨word c, none⟩]
  | (j, d) :: rest => ⟨word c, some j.text⟩ :: jointChunks d rest

/-- A line joins the commands of `cl`, none of them empty. The type of commands may tell apart
commands of the same text, such as by their place in the line. -/
structure Reads (line : Text) (cl : CommandLine α) : Prop where
  chunks : cutLine jointCutter () line = jointChunks word cl.first cl.rest
  ne_nil : ∀ c ∈ cl.commands, word c ≠ []

end

/-! ## Sequences of texts -/

/-- Things written with `;` between them and blanks around each. -/
inductive Sequenced {β : Type} (spells : β → Text → Prop) : List β → Text → Prop
  /-- One thing. -/
  | one {b : β} {t : Text} (pre post : Text) (hpre : Blank pre) (hpost : Blank post)
      (h : spells b t) : Sequenced spells [b] (pre ++ t ++ post)
  /-- One thing before others. -/
  | cons {b : β} {t : Text} (pre post : Text) (hpre : Blank pre) (hpost : Blank post)
      (h : spells b t) {bs : List β} {u : Text} (hs : Sequenced spells bs u) :
      Sequenced spells (b :: bs) (pre ++ t ++ post ++ [';'] ++ u)

namespace Sequenced

variable {β γ : Type} {spells : β → Text → Prop} {spells' : γ → Text → Prop}

theorem single {b : β} {t : Text} (h : spells b t) : Sequenced spells [b] t := by
  have hs := one [] [] Text.blank_nil Text.blank_nil h
  rwa [List.nil_append, List.append_nil] at hs

/-- Blanks may stand around. -/
theorem pad {bs : List β} {t : Text} (h : Sequenced spells bs t) {pre post : Text}
    (hpre : Blank pre) (hpost : Blank post) : Sequenced spells bs (pre ++ t ++ post) := by
  induction h generalizing pre with
  | one pre' post' hpre' hpost' hb =>
    have hs := one (pre ++ pre') (post' ++ post) (hpre.append hpre') (hpost'.append hpost) hb
    simpa only [List.append_assoc] using hs
  | cons pre' post' hpre' hpost' hb _ ih =>
    have hs := cons (pre ++ pre') post' (hpre.append hpre') hpost' hb (ih Text.blank_nil)
    simpa only [List.append_assoc, List.nil_append] using hs

theorem append {bs cs : List β} {t u : Text} (h : Sequenced spells bs t)
    (h' : Sequenced spells cs u) : Sequenced spells (bs ++ cs) (t ++ [';'] ++ u) := by
  induction h with
  | one pre post hpre hpost hb => exact cons pre post hpre hpost hb h'
  | cons pre post hpre hpost hb _ ih =>
    have hs := cons pre post hpre hpost hb ih
    simpa only [List.append_assoc, List.cons_append] using hs

theorem map {f : β → γ} (hf : ∀ b t, spells b t → spells' (f b) t) {bs : List β} {t : Text}
    (h : Sequenced spells bs t) : Sequenced spells' (bs.map f) t := by
  induction h with
  | one pre post hpre hpost hb => exact one pre post hpre hpost (hf _ _ hb)
  | cons pre post hpre hpost hb _ ih => exact cons pre post hpre hpost (hf _ _ hb) ih

end Sequenced

/-- How a statement may be written: a block holds its steps with `;` between them. -/
def Statement.Spells {α : Type} (word : α → Text) : Statement α → Text → Prop
  | .step s, t => t = s.text word
  | .guarded k body, t => ∃ inner, Sequenced (fun s u => u = Step.text word s) body inner ∧
      t = "if (" ++ k.test ++ ") \x7b" ++ inner ++ "\x7d"

/-! ## Segments spell groups -/

section

variable {α : Type} (word : α → Text)

/-- The text of commands with `;` between them. -/
abbrev SpellsGroup : List α → Text → Prop := Sequenced fun c t => t = word c

/-- The connectors among the separators. -/
def isConnectorToken (t : Token) : Bool := t.quote.isNone && (Connector.ofText? t.value).isSome

/-- A command before a group: the two texts trim on their outer sides only. -/
theorem SpellsGroup.cons {word : α → Text} {c : α} {group : List α} {a b : Text}
    (ha : trim a = word c) (hc : word c ≠ []) (hb : trim b ≠ [])
    (h : SpellsGroup word group (trim b)) :
    trim (a ++ [';'] ++ b) ≠ [] ∧ SpellsGroup word (c :: group) (trim (a ++ [';'] ++ b)) := by
  obtain ⟨post, pre, hpost, hpre, htrim⟩ := Text.trim_append_append (ha ▸ hc) hb [';']
  have hs : SpellsGroup word (c :: group)
      ([] ++ trim a ++ post ++ [';'] ++ (pre ++ trim b ++ [])) := by
    refine Sequenced.cons [] post Text.blank_nil hpost ?_ (h.pad hpre Text.blank_nil)
    exact ha
  rw [htrim]
  refine ⟨by simp [ha, hc], ?_⟩
  simpa only [List.nil_append, List.append_nil] using hs

theorem SpellsGroup.steps {word : α → Text} {group : List α} {t : Text}
    (h : SpellsGroup word group t) :
    Sequenced (fun s u => u = Step.text word s) (group.map .command) t :=
  Sequenced.map (f := Step.command) (fun _ _ hu => hu) h

theorem SpellsGroup.statements {word : α → Text} {group : List α} {t : Text}
    (h : SpellsGroup word group t) :
    Sequenced (Statement.Spells word) (group.map fun c => .step (.command c)) t :=
  Sequenced.map (f := fun c => Statement.step (.command c)) (fun _ _ hu => hu) h

/-- The segments behind the first commands. -/
def segmentsBehind : List (Token × Text) → List Segment
  | [] => []
  | (t, b) :: cuts =>
    ((Connector.ofText? t.value).map Segment.connector).toList ++
      (piecesOf b cuts).flatMap Chunk.segments

theorem flatMap_segments_piecesOf {a : Text} (h : trim a ≠ []) (cuts : List (Token × Text)) :
    (piecesOf a cuts).flatMap Chunk.segments = .commands (trim a) :: segmentsBehind cuts := by
  cases cuts with
  | nil => simp [piecesOf, Chunk.segments, segmentsBehind, h]
  | cons cut cuts => simp [piecesOf, Chunk.segments, segmentsBehind, h]

/-- Cut at its connectors, a line that joins commands is a chain whose links spell the groups. -/
theorem exists_groups_text {a : Text} {cuts : List (Token × Text)} {c : α}
    {rest : List (Joint × α)} (hp : piecesOf a cuts = jointChunks word c rest)
    (hq : ∀ cut ∈ cuts, cut.1.quote = none) (hne : ∀ d ∈ c :: rest.map Prod.snd, word d ≠ []) :
    let kept := keepCuts isConnectorToken a cuts
    ∃ links : List ChainLink, segmentsBehind kept.2 = links.flatMap ChainLink.segments ∧
      kept.2.length = links.length ∧ trim kept.1 ≠ [] ∧
      SpellsGroup word (groupsFrom c rest).first (trim kept.1) ∧
      List.Forall₂ (fun group link => group.1 = link.guard ∧ SpellsGroup word group.2 link.text)
        (groupsFrom c rest).rest links := by
  induction rest generalizing a cuts c with
  | nil =>
    obtain ⟨rfl, ha⟩ : cuts = [] ∧ trim a = word c := by
      cases cuts with
      | nil => simpa [piecesOf, jointChunks] using hp
      | cons cut cuts => simp [piecesOf, jointChunks] at hp
    refine ⟨[], rfl, rfl, ?_, .single ha, .nil⟩
    rw [keepCuts, ha]
    exact hne c List.mem_cons_self
  | cons joined rest ih =>
    obtain ⟨j, d⟩ := joined
    obtain ⟨t, b, cuts, rfl⟩ : ∃ t b cuts', cuts = (t, b) :: cuts' := by
      cases cuts with
      | nil => simp [piecesOf, jointChunks] at hp
      | cons cut cuts => exact ⟨cut.1, cut.2, cuts, rfl⟩
    obtain ⟨⟨ha, ht⟩, hp⟩ : (trim a = word c ∧ t.value = j.text) ∧
        piecesOf b cuts = jointChunks word d rest := by
      simpa [piecesOf, jointChunks] using hp
    have hc : word c ≠ [] := hne c List.mem_cons_self
    have htq : t.quote = none := hq (t, b) List.mem_cons_self
    obtain ⟨links, hsegs, hlen, hkne, hgroup, hall⟩ := ih hp
      (fun cut hcut => hq cut (List.mem_cons_of_mem _ hcut))
      (fun e he => hne e (List.mem_cons_of_mem _ he))
    cases j with
    | sequence =>
      have htest : isConnectorToken t = false := by
        simp [isConnectorToken, ht, ofText?_sequence]
      obtain ⟨hne', hcons⟩ := hgroup.cons ha hc hkne
      simp only [keepCuts, htest, Bool.false_eq_true, ↓reduceIte, ht, text_sequence]
      exact ⟨links, hsegs, hlen, hne', hcons, hall⟩
    | link k =>
      have htest : isConnectorToken t = true := by
        simp [isConnectorToken, htq, ht, Joint.text, ofText?_text]
      simp only [keepCuts, htest, ↓reduceIte]
      refine ⟨⟨[], k, _⟩ :: links, ?_, by simp [hlen], ha ▸ hc, .single ha,
        .cons ⟨rfl, hgroup⟩ hall⟩
      rw [segmentsBehind, flatMap_segments_piecesOf hkne, hsegs, ht, Joint.text, ofText?_text]
      rfl

/-! ## The emulated line -/

/-- A block around its steps. -/
theorem spells_guarded (k : Connector) {body : List (Step α)} {inner : Text}
    (h : Sequenced (fun s u => u = Step.text word s) body inner) :
    (Statement.guarded k body).Spells word
      ("if (" ++ k.test ++ ") \x7b " ++ inner ++ " \x7d") := by
  refine ⟨[' '] ++ inner ++ [' '], h.pad Text.blank_space Text.blank_space, ?_⟩
  have hopen : (") \x7b " : Text) = ") \x7b" ++ [' '] := rfl
  have hclose : (" \x7d" : Text) = [' '] ++ "\x7d" := rfl
  rw [hopen, hclose]
  simp only [List.append_assoc]

theorem separator_eq : ("; " : Text) = [';'] ++ [' '] := rfl

theorem recordStatus_eq :
    recordStatus = [';'] ++ ([' '] ++ (Step.record : Step α).text word ++ []) := rfl

/-- Commands and a record behind them. -/
theorem sequenced_record {group : List α} {t : Text} (h : SpellsGroup word group t) :
    Sequenced (fun s u => u = Step.text word s) (group.map .command ++ [.record])
      (t ++ recordStatus) := by
  have hrecord : Sequenced (fun s u => u = Step.text word s) [.record]
      ([' '] ++ (Step.record : Step α).text word ++ []) :=
    .one _ _ Text.blank_space Text.blank_nil rfl
  rw [recordStatus_eq word, ← List.append_assoc]
  exact h.steps.append hrecord

/-- The links behind the first spell the guarded blocks. -/
theorem exists_renderRest_eq {group : Connector × List α} {link : ChainLink}
    {groups : List (Connector × List α)} {links : List ChainLink}
    (h : List.Forall₂ (fun group link => group.1 = link.guard ∧ SpellsGroup word group.2 link.text)
      (group :: groups) (link :: links)) :
    ∃ u, renderRest ((link :: links).map fun l => ⟨some l.guard, l.text⟩) = [';'] ++ u ∧
      Sequenced (Statement.Spells word) (guardedBlocks (group :: groups)) u := by
  induction links generalizing group link groups with
  | nil =>
    cases h with
    | cons hhead htail =>
    cases htail
    obtain ⟨k, commands⟩ := group
    obtain ⟨rfl, hgroup⟩ := hhead
    refine ⟨_, ?_,
      .one [' '] [] Text.blank_space Text.blank_nil (spells_guarded word _ hgroup.steps)⟩
    rw [List.map_cons, List.map_nil, renderRest, guarded_some, separator_eq]
    simp only [List.append_assoc, List.append_nil]
  | cons next links ih =>
    cases h with
    | cons hhead htail =>
    cases htail with
    | cons hnext htail =>
    obtain ⟨k, commands⟩ := group
    obtain ⟨rfl, hgroup⟩ := hhead
    obtain ⟨u, hu, hs⟩ := ih (.cons hnext htail)
    refine ⟨_, ?_, .cons [' '] [] Text.blank_space Text.blank_nil
      (spells_guarded word _ (sequenced_record word hgroup)) hs⟩
    rw [List.map_cons] at hu
    rw [List.map_cons, List.map_cons, renderRest, hu, guarded_some, separator_eq]
    simp only [List.append_assoc, List.append_nil]

/-- The emulated line spells the program of the groups. -/
theorem emulate_spells {target : Target} (hn : target.nativeConnectors = false) {line : Text}
    {cl : CommandLine α} (h : Reads word line cl) :
    Sequenced (Statement.Spells word) cl.groups.program (emulate target line) := by
  obtain ⟨a, cuts, rfl, hplaced, hm, hcut⟩ := exists_cutLine_eq jointCutter () line
  have hq : ∀ cut ∈ cuts, cut.1.quote = none := by
    intro cut hmem
    have htest := separators_ofTest_test (hm ▸ List.mem_map_of_mem hmem)
    simp only [Bool.and_eq_true, Option.isNone_iff_eq_none] at htest
    exact htest.1
  obtain ⟨links, hsegs, hlen, hne, hfirst, hrest⟩ :=
    exists_groups_text word (hcut ▸ h.chunks) hq h.ne_nil
  have hcutter : cutLine connectorCutter () (ofCuts a cuts) =
      piecesOf (keepCuts isConnectorToken a cuts).1 (keepCuts isConnectorToken a cuts).2 := by
    refine cutLine_keepCuts (fun t ht => ?_) hplaced hm
    simp only [Bool.and_eq_true] at ht ⊢
    exact ⟨ht.1, isSome_jointOfText? ht.2⟩
  have hchain : splitConnectors (ofCuts a cuts) =
      (⟨[], trim (keepCuts isConnectorToken a cuts).1, links, []⟩ : Chain).segments := by
    rw [splitConnectors, hcutter, flatMap_segments_piecesOf hne, hsegs]
    simp [Chain.segments]
  rw [emulate, hchain, links_segments, hn, CommandLine.groups, Groups.program]
  generalize hgroups : groupsFrom cl.first cl.rest = groups at hfirst hrest
  obtain ⟨first, rest⟩ := groups
  cases hrest with
  | nil =>
    -- One link: the line stays, with the blanks at its ends.
    have hkept : (keepCuts isConnectorToken a cuts).2 = [] := List.eq_nil_of_length_eq_zero hlen
    have hline := ofCuts_keepCuts isConnectorToken a cuts
    rw [hkept, ofCuts_nil] at hline
    obtain ⟨pre, post, hpre, hpost, htrim, -⟩ := Text.exists_eq_trim (ofCuts a cuts)
    rw [hline] at hfirst
    have hpadded := hfirst.statements.pad hpre hpost
    rw [← htrim] at hpadded
    exact hpadded
  | @cons group link groups links hhead htail =>
    obtain ⟨u, hu, hs⟩ := exists_renderRest_eq word (.cons hhead htail)
    have hrecord : Sequenced (Statement.Spells word)
        (.step .record :: guardedBlocks (group :: groups))
        ([' '] ++ (Step.record : Step α).text word ++ [] ++ [';'] ++ u) := by
      refine Sequenced.cons _ _ Text.blank_space Text.blank_nil ?_ hs
      rfl
    have hall := hfirst.statements.append hrecord
    have htext : renderLinks ⟨none, trim (keepCuts isConnectorToken a cuts).1⟩
        ((link :: links).map fun l => ⟨some l.guard, l.text⟩) =
          trim (keepCuts isConnectorToken a cuts).1 ++ [';'] ++
            ([' '] ++ (Step.record : Step α).text word ++ [] ++ [';'] ++ u) := by
      rw [renderLinks, hu, recordStatus_eq word]
      simp only [List.append_assoc]
    rw [← htext] at hall
    rw [if_neg (List.cons_ne_nil _ _)]
    exact hall

/-- **Emulation and the precedence of `;`.** Let a line join commands by `;`, `&&` and `||`, for a
target without connectors. The emulated line spells the program of the groups. Whatever happened
before, this program executes the commands that the line executes, in the same order and for every
outcome of the commands, exactly if no `;` of the line stands behind a connector. -/
theorem emulate_keeps_sequence_iff (target : Target) (hn : target.nativeConnectors = false)
    (line : Text) (cl : CommandLine α) (h : Reads word line cl) (m : ProgramState α Unit) :
    Sequenced (Statement.Spells word) cl.groups.program (emulate target line) ∧
      ((∀ outcome : α → Bool,
          (runProgram (fun c s => (outcome c, s)) m cl.groups.program).run.executed =
            (cl.run (fun c s => (outcome c, s)) m.run).executed) ↔
        cl.SequenceFirst) :=
  ⟨emulate_spells word hn h, executed_groups_eq_iff m cl⟩

end

/-- `make; test && make || undo`, with the commands numbered. -/
def numberedLine : CommandLine (Nat × Text) :=
  ⟨(0, "make"), [(.sequence, (1, "test")), (.link .and, (2, "make")), (.link .or, (3, "undo"))]⟩

theorem emulate_keeps_numberedLine :
    Reads Prod.snd "make; test && make || undo" numberedLine ∧
      (Target.powerShell (some 5)).nativeConnectors = false ∧
      Sequenced (Statement.Spells Prod.snd) numberedLine.groups.program
        (emulate (.powerShell (some 5)) "make; test && make || undo") ∧
      ∀ outcome : Nat × Text → Bool,
        (runProgram (fun c s => (outcome c, s)) ⟨⟨true, (), []⟩, true⟩
          numberedLine.groups.program).run.executed =
          (numberedLine.run (fun c s => (outcome c, s)) ⟨true, (), []⟩).executed := by
  have hreads : Reads Prod.snd "make; test && make || undo" numberedLine :=
    ⟨by decide +kernel, by decide +kernel⟩
  have hfirst : numberedLine.SequenceFirst := by
    unfold CommandLine.SequenceFirst
    decide
  obtain ⟨hspells, hiff⟩ :=
    emulate_keeps_sequence_iff Prod.snd (.powerShell (some 5)) rfl _ numberedLine hreads
      ⟨⟨true, (), []⟩, true⟩
  exact ⟨hreads, rfl, hspells, hiff.mpr hfirst⟩

/-- In `a && b; c`, the last command stands behind a `;` and a connector. -/
def sequenceBehindLink : CommandLine Text := ⟨"a", [(.link .and, "b"), (.sequence, "c")]⟩

/-- If all commands of `a && b; c` fail, then `a` and `c` run; the emulated line runs `a` alone. -/
theorem emulate_drops_sequence :
    Reads id "a && b; c" sequenceBehindLink ∧
      emulate (.powerShell (some 5)) "a && b; c" =
        "a; $cmdxOk = $?; if ($cmdxOk) \x7b b; c \x7d".toList ∧
      Sequenced (Statement.Spells id) sequenceBehindLink.groups.program
        (emulate (.powerShell (some 5)) "a && b; c") ∧
      (runProgram (constantly false) ⟨⟨true, (), []⟩, true⟩
        sequenceBehindLink.groups.program).run.executed = ["a".toList] ∧
      (sequenceBehindLink.run (constantly false) ⟨true, (), []⟩).executed =
        ["a".toList, "c".toList] := by
  have hreads : Reads id "a && b; c" sequenceBehindLink := ⟨by decide +kernel, by decide +kernel⟩
  refine ⟨hreads, by decide +kernel, emulate_spells id rfl hreads, ?_, ?_⟩
  · decide +kernel
  · decide +kernel

end CrossShell
