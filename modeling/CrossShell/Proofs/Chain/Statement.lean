import CrossShell.Line.Chain

/-!
# Running guarded statements

The statements that stand for connectors, as data: what they do when they run, and their text.
Commands are opaque. `exec c s` says whether the command `c` succeeds in the state `s`, and the
state it leaves.

* `AndOr`: commands joined by connectors that associate to the left; `AndOr.run` short-circuits.
* `runGroups`: the same for sequences of commands behind each connector.
* `Statement`: a command, the record of the last status, or a block under a guard.
* `guardedProgram`: the statements for a first sequence and more behind connectors.
* `runProgram_guardedProgram`: they execute what `runGroups` executes, in the same order.
-/

namespace CrossShell

/-- Whether what stands behind a connector runs, by the status before it. -/
def Connector.allows : Connector → Bool → Bool
  | .and, status => status
  | .or, status => !status

/-- The condition of a guard. -/
def Connector.test : Connector → Text
  | .and => "$cmdxOk"
  | .or => "-not $cmdxOk"

/-! ## Short-circuit evaluation -/

/-- What a run has done so far. -/
structure Run (α σ : Type) where
  /-- Whether the last command succeeded. -/
  status : Bool
  /-- The state that the commands left. -/
  state : σ
  /-- The commands executed, in order. -/
  executed : List α

section

variable {α σ : Type} (exec : α → σ → Bool × σ)

/-- Executes one command. -/
def Run.execute (r : Run α σ) (c : α) : Run α σ :=
  ⟨(exec c r.state).1, (exec c r.state).2, r.executed ++ [c]⟩

/-- Executes commands one after another. -/
def Run.executeAll (r : Run α σ) (cs : List α) : Run α σ := cs.foldl (Run.execute exec) r

/-- Commands joined by connectors. Both connectors bind equally and to the left. -/
inductive AndOr (α : Type) where
  /-- A command alone. -/
  | command (c : α)
  /-- A command behind a connector. -/
  | link (left : AndOr α) (k : Connector) (c : α)

/-- Short-circuit evaluation. -/
def AndOr.run (r : Run α σ) : AndOr α → Run α σ
  | command c => r.execute exec c
  | link left k c =>
    if k.allows (left.run r).status then (left.run r).execute exec c else left.run r

/-- The commands of a chain, joined from the left. -/
def AndOr.ofChain (first : α) (rest : List (Connector × α)) : AndOr α :=
  rest.foldl (fun left link => .link left link.1 link.2) (.command first)

/-- Runs sequences of commands, each if the connector before it allows. -/
def runGroups (r : Run α σ) : List (Connector × List α) → Run α σ
  | [] => r
  | (k, group) :: rest =>
    runGroups (if k.allows r.status then r.executeAll exec group else r) rest

/-- A chain runs link by link. -/
theorem AndOr.run_ofChain (r : Run α σ) (first : α) (rest : List (Connector × α)) :
    (AndOr.ofChain first rest).run exec r =
      runGroups exec (r.execute exec first) (rest.map fun link => (link.1, [link.2])) := by
  suffices h : ∀ left : AndOr α,
      (rest.foldl (fun left link => AndOr.link left link.1 link.2) left).run exec r =
        runGroups exec (left.run exec r) (rest.map fun link => (link.1, [link.2])) from
    h (.command first)
  induction rest with
  | nil => intro left; rfl
  | cons link rest ih =>
    intro left
    rw [List.foldl_cons, ih]
    rfl

/-! ## Statements -/

/-- What a block is made of. -/
inductive Step (α : Type) where
  /-- A command. -/
  | command (c : α)
  /-- `$cmdxOk = $?` -/
  | record

/-- A statement of a program. -/
inductive Statement (α : Type) where
  /-- A command or a record of its own. -/
  | step (s : Step α)
  /-- A block that runs if the recorded status passes the test of a connector. -/
  | guarded (k : Connector) (body : List (Step α))

/-- The state of a program: what it has done, with `$?` as the status, and the variable. -/
structure ProgramState (α σ : Type) where
  /-- What was done so far. -/
  run : Run α σ
  /-- The value of `$cmdxOk`. -/
  recorded : Bool

/-- One step. A record is an assignment, which itself succeeds. -/
def Step.run (m : ProgramState α σ) : Step α → ProgramState α σ
  | command c => { m with run := m.run.execute exec c }
  | record => ⟨{ m.run with status := true }, m.run.status⟩

/-- One statement. -/
def Statement.run (m : ProgramState α σ) : Statement α → ProgramState α σ
  | step s => s.run exec m
  | guarded k body => if k.allows m.recorded then body.foldl (Step.run exec) m else m

/-- The statements of a program, one after another. -/
def runProgram (m : ProgramState α σ) (program : List (Statement α)) : ProgramState α σ :=
  program.foldl (Statement.run exec) m

/-- The guarded blocks for sequences of commands behind connectors. All but the last record their
status. -/
def guardedBlocks : List (Connector × List α) → List (Statement α)
  | [] => []
  | [(k, group)] => [.guarded k (group.map .command)]
  | (k, group) :: next :: rest =>
    .guarded k (group.map .command ++ [.record]) :: guardedBlocks (next :: rest)

/-- The program for a first sequence of commands and more behind connectors. -/
def guardedProgram (first : List α) (rest : List (Connector × List α)) : List (Statement α) :=
  first.map (fun c => .step (.command c)) ++ .step .record :: guardedBlocks rest

/-! ## Running guarded blocks -/

/-- The status before a command has no influence on it. -/
theorem Run.execute_congr {r r' : Run α σ} (hs : r.state = r'.state)
    (he : r.executed = r'.executed) (c : α) : r.execute exec c = r'.execute exec c := by
  simp only [Run.execute, hs, he]

theorem Run.executeAll_congr {r r' : Run α σ} (hs : r.state = r'.state)
    (he : r.executed = r'.executed) {cs : List α} (hc : cs ≠ []) :
    r.executeAll exec cs = r'.executeAll exec cs := by
  cases cs with
  | nil => exact absurd rfl hc
  | cons c cs => simp only [Run.executeAll, List.foldl_cons, Run.execute_congr exec hs he]

theorem foldl_command_run (m : ProgramState α σ) (cs : List α) :
    (cs.map Step.command).foldl (Step.run exec) m = { m with run := m.run.executeAll exec cs } := by
  induction cs generalizing m with
  | nil => rfl
  | cons c cs ih =>
    rw [List.map_cons, List.foldl_cons, ih]
    rfl

/-- The program has done what a run has done, and its variable holds the status of that run. The
status of the program itself may differ: an assignment has changed it. -/
structure ProgramState.Tracks (m : ProgramState α σ) (r : Run α σ) : Prop where
  state : m.run.state = r.state
  executed : m.run.executed = r.executed
  recorded : m.recorded = r.status

/-- A sequence that records its status keeps the program on track. -/
theorem ProgramState.Tracks.sequence {m : ProgramState α σ} {r : Run α σ} (h : m.Tracks r)
    {group : List α} (hg : group ≠ []) :
    ((group.map Step.command ++ [Step.record]).foldl (Step.run exec) m).Tracks
      (r.executeAll exec group) := by
  rw [List.foldl_append, foldl_command_run, ← Run.executeAll_congr exec h.state h.executed hg]
  exact ⟨rfl, rfl, rfl⟩

/-- **Guarded blocks.** On track, the blocks execute the commands that short-circuit evaluation
executes, and leave the same state. -/
theorem runProgram_guardedBlocks {m : ProgramState α σ} {r : Run α σ} (h : m.Tracks r)
    {rest : List (Connector × List α)} (hr : ∀ link ∈ rest, link.2 ≠ []) :
    (runProgram exec m (guardedBlocks rest)).run.executed = (runGroups exec r rest).executed ∧
      (runProgram exec m (guardedBlocks rest)).run.state = (runGroups exec r rest).state := by
  induction rest generalizing m r with
  | nil => exact ⟨h.executed, h.state⟩
  | cons link rest ih =>
    obtain ⟨k, group⟩ := link
    have hg : group ≠ [] := hr _ List.mem_cons_self
    cases rest with
    | nil =>
      simp only [guardedBlocks, runProgram, List.foldl_cons, List.foldl_nil, Statement.run,
        runGroups, h.recorded, foldl_command_run]
      split
      · rw [Run.executeAll_congr exec h.state h.executed hg]
        exact ⟨rfl, rfl⟩
      · exact ⟨h.executed, h.state⟩
    | cons next rest =>
      -- The block is passed over or runs to its record; the program stays on track either way.
      have hstep : (Statement.run exec m (.guarded k (group.map .command ++ [.record]))).Tracks
          (if k.allows r.status then r.executeAll exec group else r) := by
        simp only [Statement.run, h.recorded]
        split
        · exact h.sequence exec hg
        · exact h
      exact ih hstep fun link hl => hr link (List.mem_cons_of_mem _ hl)

theorem runProgram_append (m : ProgramState α σ) (p q : List (Statement α)) :
    runProgram exec m (p ++ q) = runProgram exec (runProgram exec m p) q := by
  simp only [runProgram, List.foldl_append]

theorem runProgram_commands (m : ProgramState α σ) (cs : List α) :
    runProgram exec m (cs.map fun c => .step (.command c)) =
      { m with run := m.run.executeAll exec cs } := by
  rw [← foldl_command_run exec m cs, runProgram, List.foldl_map, List.foldl_map]
  rfl

/-- **Guarded programs.** Whatever `$?` and `$cmdxOk` were before, the program executes the first
sequence and then what short-circuit evaluation executes of the others, and leaves the same
state. -/
theorem runProgram_guardedProgram (m : ProgramState α σ) (first : List α)
    (rest : List (Connector × List α)) (hr : ∀ link ∈ rest, link.2 ≠ []) :
    let r := runGroups exec (m.run.executeAll exec first) rest
    (runProgram exec m (guardedProgram first rest)).run.executed = r.executed ∧
      (runProgram exec m (guardedProgram first rest)).run.state = r.state := by
  intro r
  have hrecord : (Step.record.run exec ⟨m.run.executeAll exec first, m.recorded⟩).Tracks
      (m.run.executeAll exec first) := ⟨rfl, rfl, rfl⟩
  rw [guardedProgram, runProgram_append, runProgram_commands]
  exact runProgram_guardedBlocks exec hrecord hr

end

/-! ## The text of statements -/

section

variable {α : Type} (word : α → Text)

/-- How a step is written. -/
def Step.text : Step α → Text
  | command c => word c
  | record => "$cmdxOk = $?"

/-- How a statement is written. -/
def Statement.text : Statement α → Text
  | step s => s.text word
  | guarded k body =>
    "if (" ++ k.test ++ ") \x7b " ++ Text.join "; " (body.map (Step.text word)) ++ " \x7d"

@[simp] theorem Step.text_command (c : α) : (Step.command c).text word = word c := rfl

@[simp] theorem Statement.text_step (s : Step α) : (Statement.step s).text word = s.text word := rfl

@[simp] theorem Statement.text_guarded (k : Connector) (body : List (Step α)) :
    (Statement.guarded k body).text word =
      "if (" ++ k.test ++ ") \x7b " ++ Text.join "; " (body.map (Step.text word)) ++ " \x7d" := rfl

/-- How a program is written. -/
def programText (program : List (Statement α)) : Text :=
  Text.join "; " (program.map (Statement.text word))

/-- A record behind other statements. -/
theorem separator_append_record :
    ("; " : Text) ++ (Step.record : Step α).text word = recordStatus :=
  rfl

end

theorem Text.join_cons (sep t : Text) (ts : List Text) :
    Text.join sep (t :: ts) = t ++ ts.flatMap (sep ++ ·) := by
  induction ts generalizing t with
  | nil => simp [Text.join]
  | cons u ts ih => simp [Text.join, ih]

end CrossShell
