import CrossShell.Proofs.Chain.Statement
import Mathlib.Tactic.ByContra

/-!
# Sequences and connectors in one line

A line joins commands by `;`, `&&` and `||`. The connectors bind tighter than `;`, so the line is a
sequence of lists (`CommandLine.lists`). Cutting the line at its connectors first gives groups
instead (`CommandLine.groups`): what stands behind a connector falls under its guard up to the next
connector, across every `;`.

* `run_eq_runJoints`: the line decides at each joint whether the next command runs.
* `runProgram_groups`: so does the program of the groups, with one decision for a whole group.
* `executed_groups_eq_iff`: the two execute the same commands for every outcome exactly if no `;`
  stands behind a connector.
-/

namespace CrossShell

/-- What joins two commands of a line. -/
inductive Joint where
  /-- `;` -/
  | sequence
  /-- `&&` or `||` -/
  | link (k : Connector)
  deriving DecidableEq, Repr

/-- Whether the command behind a joint runs, by the status before it. -/
def Joint.allows : Joint → Bool → Bool
  | sequence, _ => true
  | link k, status => k.allows status

/-- Commands and what joins them. -/
structure CommandLine (α : Type) where
  /-- The first command. -/
  first : α
  /-- The others, each with the joint before it. -/
  rest : List (Joint × α)

namespace CommandLine

variable {α : Type}

/-- The commands in order. -/
def commands (line : CommandLine α) : List α := line.first :: line.rest.map Prod.snd

/-- No `;` stands behind a connector. -/
def SequenceFirst (line : CommandLine α) : Prop :=
  (line.rest.map Prod.fst).Pairwise fun j j' => j' = .sequence → j = .sequence

end CommandLine

section

variable {α σ : Type} (exec : α → σ → Bool × σ)

/-! ## The meaning of a line -/

/-- The lists between the `;`, where the one read last is `left`. -/
def listsFrom (left : AndOr α) : List (Joint × α) → List (AndOr α)
  | [] => [left]
  | (.sequence, c) :: rest => left :: listsFrom (.command c) rest
  | (.link k, c) :: rest => listsFrom (.link left k c) rest

/-- The lists of a line. -/
def CommandLine.lists (line : CommandLine α) : List (AndOr α) :=
  listsFrom (.command line.first) line.rest

/-- Runs the lists of a line one after another. -/
def CommandLine.run (r : Run α σ) (line : CommandLine α) : Run α σ :=
  line.lists.foldl (fun r list => list.run exec r) r

/-- Decides at each joint whether the command behind it runs. -/
def runJoints (r : Run α σ) : List (Joint × α) → Run α σ
  | [] => r
  | (j, c) :: rest => runJoints (if j.allows r.status then r.execute exec c else r) rest

theorem foldl_listsFrom (r : Run α σ) (left : AndOr α) (rest : List (Joint × α)) :
    (listsFrom left rest).foldl (fun r list => list.run exec r) r =
      runJoints exec (left.run exec r) rest := by
  induction rest generalizing r left with
  | nil => rfl
  | cons joined rest ih =>
    obtain ⟨j, c⟩ := joined
    cases j with
    | sequence => rw [listsFrom, List.foldl_cons, ih]; rfl
    | link k => rw [listsFrom, ih]; rfl

/-- A line runs joint by joint. -/
theorem run_eq_runJoints (r : Run α σ) (line : CommandLine α) :
    line.run exec r = runJoints exec (r.execute exec line.first) line.rest :=
  foldl_listsFrom exec r _ _

/-! ## Groups between connectors -/

/-- The commands between connectors. -/
structure Groups (α : Type) where
  /-- The commands before the first connector. -/
  first : List α
  /-- The commands behind each connector. -/
  rest : List (Connector × List α)

/-- The groups of a line with the first command `c`. -/
def groupsFrom (c : α) : List (Joint × α) → Groups α
  | [] => ⟨[c], []⟩
  | (.sequence, d) :: rest => ⟨c :: (groupsFrom d rest).first, (groupsFrom d rest).rest⟩
  | (.link k, d) :: rest => ⟨[c], (k, (groupsFrom d rest).first) :: (groupsFrom d rest).rest⟩

/-- The groups of a line. -/
def CommandLine.groups (line : CommandLine α) : Groups α := groupsFrom line.first line.rest

/-- The statements for groups: the commands as they are if there is no connector. -/
def Groups.program (groups : Groups α) : List (Statement α) :=
  if groups.rest = [] then groups.first.map fun c => .step (.command c)
  else guardedProgram groups.first groups.rest

theorem groupsFrom_ne_nil (c : α) (rest : List (Joint × α)) :
    (groupsFrom c rest).first ≠ [] ∧ ∀ group ∈ (groupsFrom c rest).rest, group.2 ≠ [] := by
  induction rest generalizing c with
  | nil => simp [groupsFrom]
  | cons joined rest ih =>
    obtain ⟨j, d⟩ := joined
    obtain ⟨hfirst, hrest⟩ := ih d
    cases j with
    | sequence => exact ⟨by simp [groupsFrom], hrest⟩
    | link k =>
      refine ⟨by simp [groupsFrom], ?_⟩
      simp only [groupsFrom, List.mem_cons, forall_eq_or_imp]
      exact ⟨hfirst, hrest⟩

/-- Decides at each connector whether the commands up to the next one run. -/
def runBlocks : (allowed : Bool) → (r : Run α σ) → List (Joint × α) → Run α σ
  | _, r, [] => r
  | allowed, r, (.sequence, c) :: rest =>
    runBlocks allowed (if allowed then r.execute exec c else r) rest
  | _, r, (.link k, c) :: rest =>
    runBlocks (k.allows r.status) (if k.allows r.status then r.execute exec c else r) rest

theorem runGroups_groupsFrom (allowed : Bool) (r : Run α σ) (c : α) (rest : List (Joint × α)) :
    runGroups exec (if allowed then r.executeAll exec (groupsFrom c rest).first else r)
        (groupsFrom c rest).rest =
      runBlocks exec allowed (if allowed then r.execute exec c else r) rest := by
  induction rest generalizing allowed r c with
  | nil => rfl
  | cons joined rest ih =>
    obtain ⟨j, d⟩ := joined
    cases j with
    | sequence =>
      rw [runBlocks, ← ih]
      cases allowed <;> rfl
    | link k =>
      rw [runBlocks, ← ih]
      rfl

/-- The program of the groups decides once for each group. -/
theorem runProgram_groups (m : ProgramState α σ) (line : CommandLine α) :
    (runProgram exec m line.groups.program).run.executed =
      (runBlocks exec true (m.run.execute exec line.first) line.rest).executed := by
  have hblocks := runGroups_groupsFrom exec true m.run line.first line.rest
  simp only [↓reduceIte] at hblocks
  rw [← hblocks, CommandLine.groups, Groups.program]
  split
  · rename_i hrest
    rw [runProgram_commands, hrest]
    rfl
  · exact (runProgram_guardedProgram exec m _ _ (groupsFrom_ne_nil line.first line.rest).2).1

/-! ## Where the two agree -/

/-- Without a `;` behind a connector, deciding for groups is deciding for commands. -/
theorem runBlocks_eq_runJoints {allowed : Bool} (r : Run α σ) {rest : List (Joint × α)}
    (hp : (rest.map Prod.fst).Pairwise fun j j' => j' = .sequence → j = .sequence)
    (ha : allowed = false → .sequence ∉ rest.map Prod.fst) :
    runBlocks exec allowed r rest = runJoints exec r rest := by
  induction rest generalizing allowed r with
  | nil => rfl
  | cons joined rest ih =>
    obtain ⟨j, c⟩ := joined
    rw [List.map_cons, List.pairwise_cons] at hp
    obtain ⟨hhead, htail⟩ := hp
    cases j with
    | sequence =>
      have htrue : allowed = true := by
        cases allowed with
        | false => exact absurd List.mem_cons_self (ha rfl)
        | true => rfl
      rw [runBlocks, runJoints, ih _ htail (by simp [htrue]), htrue]
      rfl
    | link k =>
      rw [runBlocks, runJoints, ih _ htail]
      · rfl
      · intro _ hmem
        cases hhead _ hmem rfl

/-! ## Where they differ -/

/-- Every command has the same outcome. -/
def constantly (b : Bool) (_ : α) (s : σ) : Bool × σ := (b, s)

theorem status_execute_constantly {b : Bool} {r : Run α σ} (h : r.status = b) (p : Bool) (c : α) :
    (if p then r.execute (constantly b) c else r).status = b := by
  cases p
  · exact h
  · rfl

theorem length_execute (r : Run α σ) (p : Bool) (c : α) :
    (if p then r.execute exec c else r).executed.length = r.executed.length + p.toNat := by
  cases p
  · rfl
  · simp [Run.execute]

/-- The number of commands that run if every status is `b`. -/
def allowedCount (b : Bool) (rest : List (Joint × α)) : Nat :=
  rest.countP fun joined => joined.1.allows b

theorem allowedCount_cons (b : Bool) (j : Joint) (c : α) (rest : List (Joint × α)) :
    allowedCount b ((j, c) :: rest) = (j.allows b).toNat + allowedCount b rest := by
  rw [allowedCount, List.countP_cons, Nat.add_comm]
  cases j.allows b <;> rfl

theorem length_runJoints {b : Bool} {r : Run α σ} (h : r.status = b) (rest : List (Joint × α)) :
    (runJoints (constantly b) r rest).executed.length =
      r.executed.length + allowedCount b rest := by
  induction rest generalizing r with
  | nil => rfl
  | cons joined rest ih =>
    obtain ⟨j, c⟩ := joined
    rw [runJoints, ih (status_execute_constantly h _ c), length_execute, h, allowedCount_cons]
    omega

/-- A step over one joint executes at most what the joint allows. -/
theorem runBlocks_constantly_cons {b : Bool} (allowed : Bool) {r : Run α σ} (h : r.status = b)
    (j : Joint) (c : α) (rest : List (Joint × α)) :
    ∃ allowed' p : Bool, p.toNat ≤ (j.allows b).toNat ∧
      runBlocks (constantly b) allowed r ((j, c) :: rest) =
        runBlocks (constantly b) allowed' (if p then r.execute (constantly b) c else r) rest := by
  cases j with
  | sequence => exact ⟨allowed, allowed, Bool.toNat_le allowed, rfl⟩
  | link k => exact ⟨k.allows b, k.allows b, Nat.le_refl _, by rw [runBlocks, h]⟩

/-- Deciding for groups executes no more than deciding for commands. -/
theorem length_runBlocks_le {b : Bool} (allowed : Bool) {r : Run α σ} (h : r.status = b)
    (rest : List (Joint × α)) :
    (runBlocks (constantly b) allowed r rest).executed.length ≤
      r.executed.length + allowedCount b rest := by
  induction rest generalizing allowed r with
  | nil => exact Nat.le_refl _
  | cons joined rest ih =>
    obtain ⟨j, c⟩ := joined
    obtain ⟨allowed', p, hp, hstep⟩ := runBlocks_constantly_cons allowed h j c rest
    have hle := ih allowed' (status_execute_constantly h p c)
    rw [length_execute] at hle
    rw [hstep, allowedCount_cons]
    omega

/-- An outcome that a connector does not let through. -/
theorem exists_allows_eq_false (k : Connector) : ∃ b, k.allows b = false := by
  cases k
  · exact ⟨false, rfl⟩
  · exact ⟨true, rfl⟩

/-- If a `;` stands behind a connector, then one stands directly behind a connector. -/
theorem exists_link_sequence {rest : List (Joint × α)}
    (h : ¬(rest.map Prod.fst).Pairwise fun j j' => j' = .sequence → j = .sequence) :
    ∃ pre k c d post, rest = pre ++ (.link k, c) :: (.sequence, d) :: post := by
  induction rest with
  | nil => exact absurd List.Pairwise.nil h
  | cons joined rest ih =>
    obtain ⟨j, c⟩ := joined
    by_cases htail : (rest.map Prod.fst).Pairwise fun j j' => j' = .sequence → j = .sequence
    · obtain ⟨hmem, k, rfl⟩ : .sequence ∈ rest.map Prod.fst ∧ ∃ k, j = .link k := by
        rw [List.map_cons, List.pairwise_cons, not_and_or, or_iff_left (not_not.mpr htail)] at h
        push Not at h
        obtain ⟨j', hj', rfl, hj⟩ := h
        cases j with
        | sequence => exact absurd rfl hj
        | link k => exact ⟨hj', k, rfl⟩
      cases rest with
      | nil => cases hmem
      | cons next post =>
        obtain ⟨j', d⟩ := next
        have hj' : j' = .sequence := by
          rw [List.map_cons] at hmem htail
          rcases List.mem_cons.mp hmem with he | hmem
          · exact he.symm
          · exact (List.pairwise_cons.mp htail).1 _ hmem rfl
        exact ⟨[], k, c, d, post, by rw [hj']; rfl⟩
    · obtain ⟨pre, k, c', d, post, rfl⟩ := ih htail
      exact ⟨(j, c) :: pre, k, c', d, post, rfl⟩

/-- With a `;` directly behind a connector, deciding for groups executes less than deciding for
commands, if every command has an outcome that the connector does not let through. -/
theorem length_runBlocks_lt {b : Bool} {k : Connector} (hk : k.allows b = false) (allowed : Bool)
    {r : Run α σ} (h : r.status = b) (pre : List (Joint × α)) (c d : α) (post : List (Joint × α)) :
    (runBlocks (constantly b) allowed r
        (pre ++ (.link k, c) :: (.sequence, d) :: post)).executed.length <
      r.executed.length + allowedCount b (pre ++ (.link k, c) :: (.sequence, d) :: post) := by
  induction pre generalizing allowed r with
  | nil =>
    have hle := length_runBlocks_le false h post
    have hsequence : (Joint.sequence.allows b).toNat = 1 := rfl
    simp only [List.nil_append, runBlocks, h, hk, Bool.false_eq_true, ↓reduceIte]
    rw [allowedCount_cons, allowedCount_cons, hsequence]
    omega
  | cons joined pre ih =>
    obtain ⟨j, c'⟩ := joined
    obtain ⟨allowed', p, hp, hstep⟩ := runBlocks_constantly_cons allowed h j c'
      (pre ++ (.link k, c) :: (.sequence, d) :: post)
    have hlt := ih allowed' (status_execute_constantly h p c')
    rw [length_execute] at hlt
    rw [List.cons_append, hstep, allowedCount_cons]
    omega

/-- **Where groups keep the meaning.** Whatever happened before, the program of the groups executes
what the line executes, for every outcome of the commands, exactly if no `;` stands behind a
connector. -/
theorem executed_groups_eq_iff (m : ProgramState α Unit) (line : CommandLine α) :
    (∀ outcome : α → Bool,
        (runProgram (fun c s => (outcome c, s)) m line.groups.program).run.executed =
          (line.run (fun c s => (outcome c, s)) m.run).executed) ↔
      line.SequenceFirst := by
  constructor
  · intro hall
    by_contra hnot
    obtain ⟨pre, k, c, d, post, hrest⟩ := exists_link_sequence hnot
    obtain ⟨b, hb⟩ := exists_allows_eq_false k
    have hstatus : (m.run.execute (constantly b) line.first).status = b := rfl
    have heq : (runBlocks (constantly b) true (m.run.execute (constantly b) line.first)
        line.rest).executed =
          (runJoints (constantly b) (m.run.execute (constantly b) line.first)
            line.rest).executed := by
      rw [← runProgram_groups, ← run_eq_runJoints]
      exact hall fun _ => b
    have hlt := length_runBlocks_lt hb true hstatus pre c d post
    rw [← hrest, heq, length_runJoints hstatus] at hlt
    exact Nat.lt_irrefl _ hlt
  · intro hfirst outcome
    rw [runProgram_groups, run_eq_runJoints, runBlocks_eq_runJoints _ _ hfirst (by simp)]

end

end CrossShell
