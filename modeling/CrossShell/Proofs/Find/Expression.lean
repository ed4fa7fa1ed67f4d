import CrossShell.Special.Wrapper

/-!
# Expressions of `find`

Behind its start paths, `find` takes an expression: tests and actions, put together by operators.
Where no operator stands between two of them, both have to hold. The words of an expression are read
one part after the other here, and a grammar gives the parts a meaning.

* `Test`, `Action`, `Operator`, `Part`: what the words of an expression stand for.
* `parts`: the parts of a list of words; `startPaths`, `expression`: the words of a whole command.
* `Means`: whether a file passes an expression, given the tests that hold of it. An action lets
  every file pass, whatever a command that it runs says.
* `planFind?_eq`: the plan of a conversion is made part by part.
-/

namespace CrossShell.Find

/-- The tests that a listing has an option for. -/
inductive Test where
  /-- The name matches a pattern. -/
  | name (pattern : Text)
  /-- The name matches a pattern, upper and lower case alike. -/
  | iname (pattern : Text)
  /-- A regular file. -/
  | file
  /-- A directory. -/
  | directory
  /-- At most `depth` levels below the children of a start path. -/
  | within (depth : Nat)
  deriving DecidableEq, Repr

namespace Test

/-- The test that a word and the word behind it write. -/
def ofWords? (word value : Text) : Option Test :=
  if word = "-name" then some (name (Text.unquote value))
  else if word = "-iname" then some (iname (Text.unquote value))
  else if word = "-type" then
    if value = "f" then some file else if value = "d" then some directory else none
  else if word = "-maxdepth" then
    match Text.toNat32? value with
    | some (depth + 1) => some (within depth)
    | _ => none
  else none

/-- The option of a listing for the test. -/
def option : Test → Text
  | name pattern => "-Filter " ++ Text.singleQuoted pattern
  | iname pattern => "-Filter " ++ Text.singleQuoted pattern
  | file => "-File"
  | directory => "-Directory"
  | within depth => "-Depth " ++ Text.ofNat depth

theorem findOption?_eq (word value : Text) :
    findOption? word value = (ofWords? word value).map option := by
  unfold findOption? ofWords?
  by_cases hname : word = "-name"
  · rw [if_pos (.inl hname), if_pos hname]
    rfl
  by_cases hiname : word = "-iname"
  · rw [if_pos (.inr hiname), if_neg hname, if_pos hiname]
    rfl
  rw [if_neg (not_or.mpr ⟨hname, hiname⟩), if_neg hname, if_neg hiname]
  split
  · split
    · rfl
    · split <;> rfl
  · split
    · rcases Text.toNat32? value with _ | _ | depth <;> rfl
    · rfl

end Test

/-- What happens to a file. -/
inductive Action where
  /-- `-print`. -/
  | print
  /-- `-delete`. -/
  | delete
  /-- `-exec` with the words of a command, at least one. -/
  | exec (first : TaggedToken) (rest : List TaggedToken)
  deriving DecidableEq, Repr

/-- The operators of an expression. -/
inductive Operator where
  /-- `!`, `-not`. -/
  | not
  /-- `\(`. -/
  | opening
  /-- `\)`. -/
  | closing
  /-- `-a`, `-and`. -/
  | and
  /-- `-o`, `-or`. -/
  | or
  deriving DecidableEq, Repr

/-- The words that write an operator. -/
def operatorWords : List (Text × Operator) :=
  [("!", .not), ("-not", .not), ("\\(", .opening), ("\\)", .closing), ("-a", .and), ("-and", .and),
    ("-o", .or), ("-or", .or)]

/-- The operator that a word writes. -/
def Operator.ofWord? (word : Text) : Option Operator := operatorWords.lookup word

/-- The words that a test or an action starts with. -/
def primaryWords : List Text :=
  ["-name", "-iname", "-type", "-maxdepth", "-delete", "-print", "-exec"]

/-- A part of an expression. -/
inductive Part where
  /-- A test with its value. The word behind `-name` is its pattern, whatever it is. -/
  | test (t : Test)
  /-- An action, with all words of a run. -/
  | action (a : Action)
  /-- An operator. -/
  | operator (o : Operator)
  /-- Any other word. -/
  | other (word : Text)
  deriving DecidableEq, Repr

namespace Part

/-- The test that a part is. -/
def test? : Part → Option Test
  | test t => some t
  | _ => none

/-- Whether a part is a test or an action. -/
def isPrimary : Part → Bool
  | test _ | action _ => true
  | operator _ | other _ => false

end Part

/-- The tests among parts, in order. -/
def tests (ps : List Part) : List Test := ps.filterMap Part.test?

/-! ## Reading -/

/-- The part that starts with a word, and how many words behind it belong to it. -/
def readPart (word : TaggedToken) (behind : List TaggedToken) : Part × Nat :=
  if word.value = "-print" then (.action .print, 0)
  else if word.value = "-delete" then (.action .delete, 0)
  else if word.value = "-exec" then
    match behind.takeWhile (!endsExec ·) with
    | [] => (.other word.value, 0)
    | first :: rest =>
      if rest.length + 1 = behind.length then (.other word.value, 0)
      else (.action (.exec first rest), rest.length + 2)
  else match Operator.ofWord? word.value with
    | some o => (.operator o, 0)
    | none =>
      match behind.head?.bind fun value => Test.ofWords? word.value value.value with
      | some t => (.test t, 1)
      | none => (.other word.value, 0)

/-- The parts of words of which the first `skip` are read already. -/
def parts : (skip : Nat) → List TaggedToken → List Part
  | _, [] => []
  | skip + 1, _ :: ts => parts skip ts
  | 0, t :: ts => (readPart t ts).1 :: parts (readPart t ts).2 ts

section

variable {word : Text} {o : Operator}

/-- No test and no action starts with an operator. -/
theorem ne_of_operator (h : Operator.ofWord? word = some o) : ∀ w ∈ primaryWords, word ≠ w := by
  have hnone : ∀ w ∈ primaryWords, Operator.ofWord? w = none := by decide
  rintro w hw rfl
  rw [hnone word hw] at h
  cases h

theorem Test.ofWords?_of_operator (h : Operator.ofWord? word = some o) (value : Text) :
    ofWords? word value = none := by
  have hne := ne_of_operator h
  rw [ofWords?, if_neg (hne "-name" (by decide)), if_neg (hne "-iname" (by decide)),
    if_neg (hne "-type" (by decide)), if_neg (hne "-maxdepth" (by decide))]

theorem readPart_of_operator {t : TaggedToken} (h : Operator.ofWord? t.value = some o)
    (ts : List TaggedToken) : readPart t ts = (.operator o, 0) := by
  have hne := ne_of_operator h
  rw [readPart, if_neg (hne "-print" (by decide)), if_neg (hne "-delete" (by decide)),
    if_neg (hne "-exec" (by decide)), h]

end

/-- Whether a word may be a start path: it is neither a flag nor an operator. -/
def isPath (word : TaggedToken) : Bool :=
  !word.isFlag && (Operator.ofWord? word.value).isNone

/-- The start paths of a command. -/
def startPaths (words : List TaggedToken) : List TaggedToken := words.takeWhile isPath

/-- The expression behind the start paths. -/
def expression (words : List TaggedToken) : List Part := parts 0 (words.dropWhile isPath)

/-! ## Meaning -/

/-- How tightly the pieces of an expression are bound. -/
inductive Level where
  /-- A test, an action, a group, or the negation of one of these. -/
  | factor
  /-- Factors that all have to hold. -/
  | term
  /-- Terms of which one has to hold. -/
  | sum
  deriving DecidableEq, Repr

/-- `Means holds level ps v`: an expression written `ps` is a piece of a level, and `v` says whether
a file passes it of which exactly the tests `holds` hold. -/
inductive Means (holds : Test → Bool) : Level → List Part → Bool → Prop where
  | test (t : Test) : Means holds .factor [.test t] (holds t)
  | action (a : Action) : Means holds .factor [.action a] true
  | negation {ps v} : Means holds .factor ps v →
      Means holds .factor (.operator .not :: ps) (!v)
  | group {ps v} : Means holds .sum ps v →
      Means holds .factor (.operator .opening :: (ps ++ [.operator .closing])) v
  | factor {ps v} : Means holds .factor ps v → Means holds .term ps v
  | juxtaposed {ps qs v w} : Means holds .term ps v → Means holds .factor qs w →
      Means holds .term (ps ++ qs) (v && w)
  | conjunction {ps qs v w} : Means holds .term ps v → Means holds .factor qs w →
      Means holds .term (ps ++ .operator .and :: qs) (v && w)
  | term {ps v} : Means holds .term ps v → Means holds .sum ps v
  | disjunction {ps qs v w} : Means holds .sum ps v → Means holds .term qs w →
      Means holds .sum (ps ++ .operator .or :: qs) (v || w)

/-- Whether a file passes an expression, which may be empty. -/
def Passes (holds : Test → Bool) (ps : List Part) (v : Bool) : Prop :=
  ps = [] ∧ v = true ∨ Means holds .sum ps v

variable {holds : Test → Bool}

@[simp] theorem tests_nil : tests [] = [] := rfl

@[simp] theorem tests_test (t : Test) : tests [.test t] = [t] := rfl

@[simp] theorem tests_action (a : Action) : tests [.action a] = [] := rfl

theorem tests_append (ps qs : List Part) : tests (ps ++ qs) = tests ps ++ tests qs :=
  List.filterMap_append

theorem all_tests_cons (p : Part) (ps : List Part) :
    (tests (p :: ps)).all holds = ((tests [p]).all holds && (tests ps).all holds) := by
  rw [← List.singleton_append, tests_append, List.all_append]

theorem means_primary (holds : Test → Bool) {p : Part} (h : p.isPrimary = true) :
    Means holds .factor [p] ((tests [p]).all holds) := by
  cases p with
  | test t => simpa using Means.test t
  | action a => exact .action a
  | operator o => cases h
  | other word => cases h

/-- Tests and actions behind a term are taken into it. -/
theorem Means.append_primaries {ps qs : List Part} {v : Bool} (hps : Means holds .term ps v)
    (hqs : ∀ p ∈ qs, p.isPrimary = true) :
    Means holds .term (ps ++ qs) (v && (tests qs).all holds) := by
  induction qs generalizing ps v with
  | nil => simpa using hps
  | cons q qs ih =>
    have hq := means_primary holds (hqs q List.mem_cons_self)
    have hrest := ih (hps.juxtaposed hq) fun p hp => hqs p (List.mem_cons_of_mem _ hp)
    rw [List.append_assoc, Bool.and_assoc] at hrest
    rw [all_tests_cons]
    exact hrest

/-- Without operators, a piece of any level holds exactly if all its tests do. -/
theorem Means.eq_all {level : Level} {ps : List Part} {v : Bool} (h : Means holds level ps v)
    (hfree : ∀ o, Part.operator o ∉ ps) : v = (tests ps).all holds := by
  induction h with
  | test t => simp
  | action a => rfl
  | negation _ _ => exact absurd List.mem_cons_self (hfree .not)
  | group _ _ => exact absurd List.mem_cons_self (hfree .opening)
  | factor _ ih => exact ih hfree
  | juxtaposed _ _ ihps ihqs =>
    rw [tests_append, List.all_append, ← ihps fun o ho => hfree o (List.mem_append_left _ ho),
      ← ihqs fun o ho => hfree o (List.mem_append_right _ ho)]
  | conjunction _ _ _ _ => exact absurd (by simp) (hfree .and)
  | term _ ih => exact ih hfree
  | disjunction _ _ _ _ => exact absurd (by simp) (hfree .or)

theorem operator_notMem {ps : List Part} (h : ∀ p ∈ ps, p.isPrimary = true) (o : Operator) :
    Part.operator o ∉ ps :=
  fun hmem => absurd (h _ hmem) (by simp [Part.isPrimary])

/-- **Tests and actions alone** are an expression, and a file passes it exactly if all the tests
hold. -/
theorem passes_iff {ps : List Part} (h : ∀ p ∈ ps, p.isPrimary = true) (v : Bool) :
    Passes holds ps v ↔ v = (tests ps).all holds := by
  constructor
  · rintro (⟨rfl, rfl⟩ | hmeans)
    · rfl
    · exact hmeans.eq_all (operator_notMem h)
  · rintro rfl
    cases ps with
    | nil => exact .inl ⟨rfl, rfl⟩
    | cons p ps =>
      have hfirst := means_primary holds (h p List.mem_cons_self)
      have hall := hfirst.factor.append_primaries fun q hq => h q (List.mem_cons_of_mem _ hq)
      rw [all_tests_cons]
      exact .inr hall.term

/-! ## The plan of a conversion -/

/-- What a part adds to a plan; an operator and any other word have no place in it. -/
def Part.extend? (nested : Nested) (inv : Invocation) (plan : FindPlan) : Part → Option FindPlan
  | test t => some { plan with options := plan.options ++ [t.option] }
  | action .print => some plan
  | action .delete => some { plan with action := some "Remove-Item -Force" }
  | action (.exec first rest) =>
    (execStage? nested inv (first :: rest)).map fun stage => { plan with action := some stage }
  | operator _ | other _ => none

/-- One step of the plan reads one part. -/
theorem planFind?_cons (nested : Nested) (inv : Invocation) (plan : FindPlan) (t : TaggedToken)
    (ts : List TaggedToken) : planFind? nested inv 0 plan (t :: ts) =
      ((readPart t ts).1.extend? nested inv plan).bind fun plan =>
        planFind? nested inv (readPart t ts).2 plan ts := by
  rw [planFind?.eq_def, readPart]
  by_cases hprint : t.value = "-print"
  · simp only [if_pos hprint, Part.extend?, Option.bind_some]
  by_cases hdelete : t.value = "-delete"
  · simp only [if_neg hprint, if_pos hdelete, Part.extend?, Option.bind_some]
  by_cases hexec : t.value = "-exec"
  · simp only [if_neg hprint, if_neg hdelete, if_pos hexec]
    cases hcommand : ts.takeWhile (!endsExec ·) with
    | nil => split <;> rfl
    | cons first rest =>
      simp only [List.length_cons]
      split
      · rfl
      · rw [Part.extend?]
        cases execStage? nested inv (first :: rest) <;> rfl
  simp only [if_neg hprint, if_neg hdelete, if_neg hexec]
  cases ho : Operator.ofWord? t.value with
  | some o =>
    cases ts with
    | nil => rfl
    | cons value ts => simp [Test.findOption?_eq, Test.ofWords?_of_operator ho, Part.extend?]
  | none =>
    cases ts with
    | nil => rfl
    | cons value ts =>
      simp only [Test.findOption?_eq, List.head?_cons, Option.bind_some]
      cases Test.ofWords? t.value value.value <;> rfl

/-- The plan is made part by part. -/
theorem planFind?_eq (nested : Nested) (inv : Invocation) (skip : Nat) (plan : FindPlan)
    (ts : List TaggedToken) : planFind? nested inv skip plan ts =
      (parts skip ts).foldlM (Part.extend? nested inv) plan := by
  induction ts generalizing skip plan with
  | nil => cases skip <;> rfl
  | cons t ts ih =>
    cases skip with
    | succ skip => exact ih skip plan
    | zero =>
      rw [planFind?_cons, parts, List.foldlM_cons]
      cases (readPart t ts).1.extend? nested inv plan with
      | none => rfl
      | some plan => exact ih _ plan

/-- A command that is run has a text, so where wrapped commands are converted it has a stage. -/
theorem exists_execStage? {nested : Nested} (hnested : ∀ line, (nested line).isSome = true)
    (inv : Invocation) (first : TaggedToken) (rest : List TaggedToken) :
    ∃ stage, execStage? nested inv (first :: rest) = some stage := by
  obtain ⟨last, hlast⟩ : ∃ last, (first :: rest).getLast? = some last :=
    ⟨_, List.getLast?_eq_some_getLast (List.cons_ne_nil first rest)⟩
  have htext : inv.textOf? (first :: rest) =
      some (Text.slice first.token.start last.token.stop inv.stage) := by
    simp only [Invocation.textOf?, List.head?_cons, hlast]
  obtain ⟨command, hcommand⟩ := Option.isSome_iff_exists.mp
    (hnested (withFoundFile (Text.slice first.token.start last.token.stop inv.stage)))
  refine ⟨forEachItem command, ?_⟩
  rw [execStage?, htext]
  simp [hcommand]

variable {nested : Nested} (inv : Invocation)

/-- A test adds its option, an action none. -/
theorem Part.extend?_of_isPrimary (hnested : ∀ line, (nested line).isSome = true) {p : Part}
    (h : p.isPrimary = true) (plan : FindPlan) : ∃ action, p.extend? nested inv plan =
      some ⟨plan.options ++ (tests [p]).map Test.option, action⟩ := by
  cases p with
  | test t => exact ⟨plan.action, by simp [extend?]⟩
  | action a =>
    cases a with
    | print => exact ⟨plan.action, by simp [extend?]⟩
    | delete => exact ⟨some "Remove-Item -Force", by simp [extend?]⟩
    | exec first rest =>
      obtain ⟨stage, hstage⟩ := exists_execStage? hnested inv first rest
      exact ⟨some stage, by simp [extend?, hstage]⟩
  | operator o => cases h
  | other word => cases h

/-- Tests and actions have a plan, and its options are those of the tests, in order. -/
theorem exists_plan (hnested : ∀ line, (nested line).isSome = true) {ps : List Part}
    (h : ∀ p ∈ ps, p.isPrimary = true) (plan : FindPlan) : ∃ action,
      ps.foldlM (Part.extend? nested inv) plan =
        some ⟨plan.options ++ (tests ps).map Test.option, action⟩ := by
  induction ps generalizing plan with
  | nil => exact ⟨plan.action, by simp⟩
  | cons p ps ih =>
    obtain ⟨action, hp⟩ := Part.extend?_of_isPrimary inv hnested (h p List.mem_cons_self) plan
    obtain ⟨last, hps⟩ := ih (fun q hq => h q (List.mem_cons_of_mem _ hq))
      ⟨plan.options ++ (tests [p]).map Test.option, action⟩
    refine ⟨last, ?_⟩
    rw [List.foldlM_cons, hp, Option.bind_eq_bind, Option.bind_some, hps, List.append_assoc,
      ← List.map_append, ← tests_append, List.singleton_append]

/-- Anything else has none. -/
theorem foldlM_extend?_eq_none {ps : List Part} {p : Part} (hp : p ∈ ps)
    (h : p.isPrimary = false) (plan : FindPlan) :
    ps.foldlM (Part.extend? nested inv) plan = none := by
  induction ps generalizing plan with
  | nil => cases hp
  | cons q ps ih =>
    rw [List.foldlM_cons]
    rcases List.mem_cons.mp hp with rfl | hp
    · cases p with
      | test t => cases h
      | action a => cases h
      | operator o => rfl
      | other word => rfl
    · cases q.extend? nested inv plan with
      | none => rfl
      | some plan => exact ih hp plan

end CrossShell.Find
