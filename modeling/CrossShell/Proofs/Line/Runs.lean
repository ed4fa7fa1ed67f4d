import CrossShell.Proofs.Line.Segmentation
import CrossShell.Proofs.Token.Glued
import CrossShell.Token.Role
import Mathlib.Data.List.Induction

/-!
# Semicolons that end a run of `find`

A `;` behind `find . -exec rm {}` belongs to `find`. Which `;` of a segment do, as its automaton
decides and as its stages say.

* `RunOpen`: some words leave a run open. It is said by their places; `runOpen_concat` is what one
  more word does.
* `Reading`: what is read of a segment, up to the last `;` between commands and up to the last pipe.
  Which `;` stand between commands is a parameter. `tracks_ofTokens`: the automaton knows of the
  pipeline whether it leaves a run open.
* `Reading.RunInPipeline`: a run is open if the pipeline is taken as one command, as the automaton
  does. `Reading.RunInStage`: a run of the stage is open, whose command word is `find`. They are the
  same in a pipeline of one stage that starts with its command word (`Reading.IsPlain.run_iff`).
* `semicolons_cut_iff`: a segment is cut at a `;` if no run is open in the pipeline. So a `find`
  behind a pipe is cut off from its `;` (`piped_run_cut`).
-/

namespace CrossShell

/-! ## Tokens outside of groups -/

/-- The tokens outside of groups. One that closes the last group counts as outside. -/
def Nesting.shown : Nesting → List Token → List Token
  | _, [] => []
  | n, t :: ts => if (n.step t).isTop then t :: (n.step t).shown ts else (n.step t).shown ts

theorem Nesting.shown_concat (n : Nesting) (ts : List Token) (t : Token) :
    n.shown (ts ++ [t]) = n.shown ts ++ if (n.after (ts ++ [t])).isTop then [t] else [] := by
  induction ts generalizing n with
  | nil => rfl
  | cons u ts ih =>
    rw [List.cons_append, shown, shown, ih, after_cons]
    split <;> rfl

/-! ## Runs -/

/-- The words that open a run. -/
def runWords : List Text := ["-exec", "-execdir", "-ok", "-okdir"]

/-- The ways to write the semicolon that closes a run. -/
def runEnds : List Text := [";", "\\;", "';'", "\";\""]

/-- Whether a token opens a run. -/
def Token.opensRun (t : Token) : Bool := t.quote.isNone && runWords.contains t.value

/-- Whether a token closes a run: it is a semicolon, or `+` behind a token that stands for the files
found. -/
def Token.closesRun (isBraces : Token → Bool) (last : Option Token) (t : Token) : Bool :=
  runEnds.contains t.value || t.value == "+" && last.any isBraces

theorem Token.closesRun_eq_false_iff {isBraces : Token → Bool} {last : Option Token} {t : Token} :
    t.closesRun isBraces last = false ↔
      runEnds.contains t.value = false ∧ ¬(t.value = "+" ∧ last.any isBraces = true) := by
  rw [Token.closesRun, Bool.or_eq_false_iff, ← Bool.not_eq_true (_ && _), Bool.and_eq_true,
    beq_iff_eq]

/-- A run is open behind some tokens: one of them opens it, and none behind that one closes it. -/
def RunOpen (opens isBraces : Token → Bool) (ts : List Token) : Prop :=
  ∃ i < ts.length, ts[i]?.any opens = true ∧
    ∀ j < ts.length, i ≤ j → ts[j + 1]?.any (·.closesRun isBraces ts[j]?) = false

instance (opens isBraces : Token → Bool) (ts : List Token) :
    Decidable (RunOpen opens isBraces ts) :=
  inferInstanceAs (Decidable (∃ i < ts.length, _ ∧ _))

/-- Only what opens and closes runs among the tokens counts. -/
theorem runOpen_congr {opens opens' isBraces isBraces' : Token → Bool} {ts : List Token}
    (hopens : ∀ t ∈ ts, opens t = opens' t)
    (hcloses : ∀ j : Nat, ∀ t ∈ ts[j + 1]?,
      t.closesRun isBraces ts[j]? = t.closesRun isBraces' ts[j]?) :
    RunOpen opens isBraces ts ↔ RunOpen opens' isBraces' ts := by
  have hopens' : ∀ i : Nat, ts[i]?.any opens = ts[i]?.any opens' := by
    intro i
    cases hi : ts[i]? with
    | none => rfl
    | some t => exact hopens t (List.mem_of_getElem? hi)
  have hcloses' : ∀ j : Nat, ts[j + 1]?.any (·.closesRun isBraces ts[j]?) =
      ts[j + 1]?.any (·.closesRun isBraces' ts[j]?) := by
    intro j
    cases hj : ts[j + 1]? with
    | none => rfl
    | some t => exact hcloses j t hj
  unfold RunOpen
  simp only [hopens', hcloses']

theorem not_runOpen_nil (opens isBraces : Token → Bool) : ¬RunOpen opens isBraces [] := by
  rintro ⟨i, hi, -⟩
  cases hi

/-- One more token: it opens a run, or a run was open and it does not close it. -/
theorem runOpen_concat {opens isBraces : Token → Bool} {ts : List Token} {t : Token} :
    RunOpen opens isBraces (ts ++ [t]) ↔
      opens t = true ∨ RunOpen opens isBraces ts ∧ t.closesRun isBraces ts.getLast? = false := by
  have hleft : ∀ {j}, j < ts.length → (ts ++ [t])[j]? = ts[j]? := List.getElem?_append_left
  have hend : ∀ {us : List Token} {j}, us.length ≤ j + 1 →
      us[j + 1]?.any (·.closesRun isBraces us[j]?) = false := by
    intro us j h
    rw [List.getElem?_eq_none (i := j + 1) h]
    rfl
  constructor
  · rintro ⟨i, hi, hopens, hnone⟩
    rw [List.length_append, List.length_singleton] at hi hnone
    by_cases hlast : i = ts.length
    · subst hlast
      rw [List.getElem?_concat_length] at hopens
      exact .inl hopens
    · refine .inr ⟨⟨i, by omega, by rwa [hleft (by omega)] at hopens, fun j hj hij => ?_⟩, ?_⟩
      · by_cases hlt : j + 1 < ts.length
        · have := hnone j (by omega) hij
          rwa [hleft hj, hleft hlt] at this
        · exact hend (by omega)
      · have := hnone (ts.length - 1) (by omega) (by omega)
        rw [hleft (by omega), show ts.length - 1 + 1 = ts.length by omega,
          List.getElem?_concat_length] at this
        rwa [List.getLast?_eq_getElem?]
  · rintro (hopens | ⟨⟨i, hi, hopens, hnone⟩, hlast⟩)
    · refine ⟨ts.length, by simp, by rwa [List.getElem?_concat_length], fun j _ hij => hend ?_⟩
      rw [List.length_append, List.length_singleton]
      omega
    · refine ⟨i, by rw [List.length_append]; omega, by rwa [hleft hi], fun j hj hij => ?_⟩
      by_cases hlt : j + 1 < ts.length
      · rw [hleft hlt, hleft (by omega)]
        exact hnone j (by omega) hij
      by_cases heq : j + 1 = ts.length
      · rw [heq, List.getElem?_concat_length, hleft (by omega),
          show j = ts.length - 1 by omega, ← List.getLast?_eq_getElem?]
        exact hlast
      · refine hend ?_
        rw [List.length_append, List.length_singleton]
        omega

/-! ## Reading a segment -/

/-- What is read of a segment. -/
structure Reading where
  /-- The open groups. -/
  nesting : Nesting := .top
  /-- The tokens behind the last `;` between commands. -/
  pipeline : List Token := []
  /-- Those behind the last pipe. -/
  stage : List Token := []
  deriving DecidableEq

namespace Reading

/-- Whether a token is a `;` between commands. If it stands outside of groups, this is up to
`keeps`, which tells of a `;` that belongs to the command in front of it. -/
def endsCommand (keeps : Reading → Bool) (r : Reading) (t : Token) : Bool :=
  (r.nesting.step t).isTop && t.isBare ";" && !keeps r

/-- Whether a token is a pipe outside of groups. -/
def endsStage (r : Reading) (t : Token) : Bool :=
  (r.nesting.step t).isTop && (t.isBare "|" || t.isBare "|&")

/-- Reads one more token. -/
def step (keeps : Reading → Bool) (r : Reading) (t : Token) : Reading where
  nesting := r.nesting.step t
  pipeline := if r.endsCommand keeps t then [] else r.pipeline ++ [t]
  stage := if r.endsCommand keeps t || r.endsStage t then [] else r.stage ++ [t]

/-- What is read behind some tokens. -/
def ofTokens (keeps : Reading → Bool) (ts : List Token) : Reading := ts.foldl (step keeps) {}

variable {keeps keeps' : Reading → Bool}

theorem ofTokens_concat (keeps : Reading → Bool) (ts : List Token) (t : Token) :
    ofTokens keeps (ts ++ [t]) = (ofTokens keeps ts).step keeps t :=
  List.foldl_concat ..

/-- The open groups are those of all tokens, and those of the pipeline. -/
theorem nesting_ofTokens (keeps : Reading → Bool) (ts : List Token) :
    (ofTokens keeps ts).nesting = Nesting.top.after ts ∧
      (ofTokens keeps ts).nesting = Nesting.top.after (ofTokens keeps ts).pipeline := by
  induction ts using List.reverseRecOn with
  | nil => exact ⟨rfl, rfl⟩
  | append_singleton ts t ih =>
    rw [ofTokens_concat]
    refine ⟨?_, ?_⟩
    · rw [step, Nesting.after_concat, ← ih.1]
    · rw [step]
      split
      · rename_i h
        simp only [endsCommand, Bool.and_eq_true] at h
        exact Nesting.eq_top_of_isTop h.1.1
      · rw [Nesting.after_concat, ← ih.2]

/-- What was read is an end of the tokens. -/
theorem suffix_ofTokens (keeps : Reading → Bool) (ts : List Token) :
    (ofTokens keeps ts).pipeline <:+ ts ∧ (ofTokens keeps ts).stage <:+ ts := by
  have hconcat : ∀ {us ts : List Token} (b : Bool) (t : Token), us <:+ ts →
      (if b then [] else us ++ [t]) <:+ ts ++ [t] := by
    rintro us ts b t ⟨front, rfl⟩
    cases b with
    | true => exact List.nil_suffix
    | false => exact ⟨front, (List.append_assoc ..).symm⟩
  induction ts using List.reverseRecOn with
  | nil => exact ⟨List.suffix_rfl, List.suffix_rfl⟩
  | append_singleton ts t ih =>
    rw [ofTokens_concat]
    exact ⟨hconcat _ t ih.1, hconcat _ t ih.2⟩

/-- Two ways to keep `;` that agree on what is read read one more token alike. -/
theorem step_congr {r : Reading} {t : Token}
    (h : (r.nesting.step t).isTop = true → t.isBare ";" = true → keeps r = keeps' r) :
    r.step keeps t = r.step keeps' t := by
  have hends : r.endsCommand keeps t = r.endsCommand keeps' t := by
    unfold endsCommand
    cases htop : (r.nesting.step t).isTop
    · rfl
    · cases hbare : t.isBare ";"
      · rfl
      · rw [h htop hbare]
  rw [step, step, hends]

/-! ### Runs in what is read -/

/-- A run is open in the pipeline, taken as one command: its first token is `find`, and `+` behind any
closing brace closes a run. -/
def RunInPipeline (r : Reading) : Prop :=
  (Nesting.top.shown r.pipeline).head?.any (·.isBare "find") = true ∧
    RunOpen Token.opensRun (·.isBare "\x7d") (Nesting.top.shown r.pipeline)

instance (r : Reading) : Decidable r.RunInPipeline := inferInstanceAs (Decidable (_ ∧ _))

/-- The command word of a stage. -/
def commandWord? (segment : Text) (stage : List Token) : Option Token :=
  ((tagRoles (fuse segment stage)).find? (·.role == .command)).map (·.token)

/-- Whether a token closes the braces of a placeholder, `{}`. -/
def isPlaceholder (stage : List Token) (t : Token) : Bool :=
  t.isBare "\x7d" && stage.any fun o => o.isBare "\x7b" && o.touches t

/-- A run is open in the stage: its command word is `find`, a word behind that opens the run, and `+`
behind a placeholder closes one. -/
def RunInStage (segment : Text) (r : Reading) : Prop :=
  ∃ c ∈ commandWord? segment r.stage, c.isBare "find" = true ∧
    RunOpen (fun t => t.opensRun && decide (c.stop ≤ t.start)) (isPlaceholder r.stage)
      (Nesting.top.shown r.stage)

instance (segment : Text) (r : Reading) : Decidable (r.RunInStage segment) :=
  inferInstanceAs (Decidable (∃ c ∈ commandWord? segment r.stage, _ ∧ _))

end Reading

/-! ## The automaton -/

namespace SequenceState

variable {s : SequenceState} {ws : List Token} {t : Token}

/-- The state behind the tokens `ws` of a command outside of groups. -/
structure Tracks (s : SequenceState) (ws : List Token) : Prop where
  atCommand : s.atCommand = ws.isEmpty
  inFind : ws ≠ [] → s.inFind = ws.head?.any (·.isBare "find")
  execOpen : s.execOpen = true ↔
    ws.head?.any (·.isBare "find") = true ∧ RunOpen Token.opensRun (·.isBare "\x7d") ws
  afterBrace : s.afterBrace = ws.getLast?.any (·.isBare "\x7d")

theorem tracks_init : Tracks {} [] where
  atCommand := rfl
  inFind h := absurd rfl h
  execOpen := by simp
  afterBrace := rfl

theorem Tracks.findAt (h : Tracks s ws) (t : Token) :
    s.findAt t = (ws ++ [t]).head?.any (·.isBare "find") := by
  unfold SequenceState.findAt
  cases ws with
  | nil => rw [h.atCommand]; rfl
  | cons w ws => rw [h.atCommand, h.inFind (by simp)]; rfl

/-- Behind a token a run is open if the token opens it, or if one was open and it does not close
it. -/
theorem execAfter_iff : s.execAfter t = true ↔ s.findAt t = true ∧ t.opensRun = true ∨
    s.execOpen = true ∧ runEnds.contains t.value = false ∧
      ¬(t.value = "+" ∧ s.afterBrace = true) := by
  have hopens : (execWords.contains t.value && t.quote.isNone && s.findAt t) =
      (s.findAt t && t.opensRun) := by
    rw [Token.opensRun, Bool.and_comm (s.findAt t), Bool.and_comm t.quote.isNone]
    rfl
  have hends : execEnds = runEnds := rfl
  rw [execAfter, hopens, hends]
  by_cases hopen : (s.findAt t && t.opensRun) = true
  · rw [if_pos hopen]
    exact ⟨fun _ => .inl (by simpa using hopen), fun _ => rfl⟩
  rw [if_neg hopen, ← Bool.and_eq_true, or_iff_right hopen]
  by_cases hend : runEnds.contains t.value = true
  · rw [if_pos hend, hend]
    simp
  rw [if_neg hend]
  by_cases hplus : t.value = "+" ∧ s.afterBrace = true
  · rw [if_pos hplus]
    simp [hplus]
  · rw [if_neg hplus]
    exact ⟨fun h => ⟨h, Bool.eq_false_iff.mpr hend, hplus⟩, And.left⟩

theorem Tracks.next (h : Tracks s ws) (t : Token) (hcuts : s.cuts t = false) :
    Tracks (s.next t) (ws ++ [t]) where
  atCommand := by simp [SequenceState.next, hcuts]
  inFind _ := h.findAt t
  execOpen := by
    show s.execAfter t = true ↔ _
    rw [execAfter_iff, h.execOpen, h.findAt, h.afterBrace, runOpen_concat,
      Token.closesRun_eq_false_iff, and_or_left, and_assoc]
    refine or_congr_right (and_congr_left fun hopen => ?_)
    cases ws with
    | nil => exact absurd hopen.1 (not_runOpen_nil _ _)
    | cons w ws => rfl
  afterBrace := by simp [SequenceState.next]

theorem tracks_cut (hcuts : s.cuts t = true) : Tracks (s.next t) [] := by
  obtain ⟨hquote, hvalue⟩ := Token.eq_of_isBare (Bool.and_eq_true_iff.mp hcuts).1
  have hclosed : s.execAfter t = false := by
    rw [Bool.eq_false_iff, ne_eq, execAfter_iff, Token.opensRun, hvalue, hquote]
    rintro (⟨-, h⟩ | ⟨-, h, -⟩) <;> cases h
  refine ⟨hcuts, fun h => absurd rfl h, ?_, ?_⟩
  · show s.execAfter t = true ↔ _
    rw [hclosed]
    simp
  · show t.isBare "\x7d" = false
    rw [Token.isBare, hvalue]
    exact Bool.and_false _

end SequenceState

theorem Cutter.after_concat {σ : Type} (cutter : Cutter σ) (n : Nesting) (s : σ) (ts : List Token)
    (t : Token) : cutter.after n s (ts ++ [t]) =
      if (n.after (ts ++ [t])).isTop then cutter.next (cutter.after n s ts) t
      else cutter.after n s ts := by
  induction ts generalizing n s with
  | nil => rfl
  | cons u ts ih => exact ih ..

/-- How the automaton reads: a `;` is kept if a run is open in the pipeline. -/
abbrev byPipeline (r : Reading) : Bool := decide r.RunInPipeline

/-- One more token, of which the automaton is shown only what stands outside of groups. -/
theorem SequenceState.Tracks.step {s : SequenceState} {r : Reading}
    (h : s.Tracks (Nesting.top.shown r.pipeline))
    (hnesting : r.nesting = Nesting.top.after r.pipeline) (t : Token) : (if (r.nesting.step t).isTop then s.next t else s).Tracks
      (Nesting.top.shown (r.step byPipeline t).pipeline) := by
  have hshown : Nesting.top.shown (r.pipeline ++ [t]) =
      Nesting.top.shown r.pipeline ++ if (r.nesting.step t).isTop then [t] else [] := by
    rw [Nesting.shown_concat, Nesting.after_concat, ← hnesting]
  cases htop : (r.nesting.step t).isTop with
  | false =>
    have hends : r.endsCommand byPipeline t = false := by rw [Reading.endsCommand, htop]; rfl
    rw [htop] at hshown
    simpa [Reading.step, hends, hshown] using h
  | true =>
    have hends : r.endsCommand byPipeline t = s.cuts t := by
      have hkeeps : byPipeline r = s.execOpen := by
        rw [Bool.eq_iff_iff, decide_eq_true_iff]
        exact h.execOpen.symm
      rw [Reading.endsCommand, htop, hkeeps]
      rfl
    rw [htop] at hshown
    cases hcuts : s.cuts t with
    | true => simpa [Reading.step, hends, hcuts, Nesting.shown] using SequenceState.tracks_cut hcuts
    | false => simpa [Reading.step, hends, hcuts, hshown] using h.next t hcuts

/-- The automaton knows of the pipeline what decides about the next `;`. -/
theorem tracks_ofTokens (ts : List Token) :
    (sequenceCutter.after .top {} ts).Tracks
      (Nesting.top.shown (Reading.ofTokens byPipeline ts).pipeline) := by
  induction ts using List.reverseRecOn with
  | nil => exact SequenceState.tracks_init
  | append_singleton ts t ih =>
    obtain ⟨hall, hpipeline⟩ := Reading.nesting_ofTokens byPipeline ts
    rw [Cutter.after_concat, Reading.ofTokens_concat, Nesting.after_concat, ← hall]
    exact ih.step hpipeline t

/-! ## Semicolons -/

/-- A `;` of a segment outside of groups, behind the tokens `front`. -/
structure SemicolonAt (segment : Text) (front : List Token) (t : Token) : Prop where
  exists_behind : ∃ behind, tokenize segment = front ++ t :: behind
  isBare : t.isBare ";" = true
  isTop : (Nesting.top.after front).isTop = true

theorem Nesting.step_semicolon {t : Token} (h : t.isBare ";" = true) (n : Nesting) :
    n.step t = n := by
  obtain ⟨hquote, hvalue⟩ := Token.eq_of_isBare h
  rw [step_eq, hvalue]
  simp

variable {segment : Text}

/-- A segment is cut at a `;` unless a run is open in the pipeline in front of it. -/
theorem SemicolonAt.mem_sequenceCuts_iff {front : List Token} {t : Token}
    (h : SemicolonAt segment front t) :
    t ∈ sequenceCuts segment ↔ ¬(Reading.ofTokens byPipeline front).RunInPipeline := by
  obtain ⟨behind, htokens⟩ := h.exists_behind
  have htracks := (tracks_ofTokens front).execOpen
  rw [sequenceCuts, mem_separators_iff sequenceCutter {} htokens, Nesting.after_concat,
    Nesting.step_semicolon h.isBare]
  show _ ∧ (t.isBare ";" && !(sequenceCutter.after .top {} front).execOpen) = true ↔ _
  rw [Reading.RunInPipeline, ← htracks, h.isTop, h.isBare]
  simp

/-- How a segment is read if a `;` is kept where a run is open in the stage. -/
abbrev byStage (segment : Text) (r : Reading) : Bool := decide (r.RunInStage segment)

/-- If both ways to keep a `;` agree at each `;` up to which they read the same, they read the
same. -/
theorem ofTokens_congr {keeps keeps' : Reading → Bool}
    (h : ∀ front t, SemicolonAt segment front t →
      Reading.ofTokens keeps front = Reading.ofTokens keeps' front →
      keeps (Reading.ofTokens keeps' front) = keeps' (Reading.ofTokens keeps' front))
    {ts behind : List Token} (htokens : tokenize segment = ts ++ behind) :
    Reading.ofTokens keeps ts = Reading.ofTokens keeps' ts := by
  induction ts using List.reverseRecOn generalizing behind with
  | nil => rfl
  | append_singleton ts t ih =>
    rw [List.append_assoc, List.singleton_append] at htokens
    have hsame := ih htokens
    rw [Reading.ofTokens_concat, Reading.ofTokens_concat, hsame]
    refine Reading.step_congr fun htop hbare => h ts t ⟨⟨behind, htokens⟩, hbare, ?_⟩ hsame
    rwa [Nesting.step_semicolon hbare, (Reading.nesting_ofTokens keeps' ts).1] at htop

/-! ## Pipelines of one stage -/

theorem Nesting.shown_sublist (n : Nesting) (ts : List Token) : (n.shown ts).Sublist ts := by
  induction ts generalizing n with
  | nil => exact List.Sublist.slnil
  | cons t ts ih =>
    rw [shown]
    split
    · exact (ih _).cons_cons t
    · exact (ih _).cons t

/-- A pipeline of one stage that starts with its command word, and in which `+` follows no brace but
that of a placeholder. -/
structure Reading.IsPlain (segment : Text) (r : Reading) : Prop where
  stage_eq : r.stage = r.pipeline
  command : commandWord? segment r.stage = (Nesting.top.shown r.stage).head?
  placeholder : ∀ j < (Nesting.top.shown r.stage).length, ∀ c ∈ (Nesting.top.shown r.stage)[j]?,
    ∀ t ∈ (Nesting.top.shown r.stage)[j + 1]?, c.isBare "\x7d" = true → t.value = "+" →
      isPlaceholder r.stage c = true

/-- In such a pipeline it does not matter whether it is taken as one command. -/
theorem Reading.IsPlain.run_iff {r : Reading} (h : r.IsPlain segment) (horder : InOrder r.stage) :
    r.RunInPipeline ↔ r.RunInStage segment := by
  rw [RunInPipeline, RunInStage, ← h.stage_eq, h.command]
  have horder' := horder.sublist (Nesting.top.shown_sublist r.stage)
  have hcloses : ∀ j : Nat, ∀ t ∈ (Nesting.top.shown r.stage)[j + 1]?,
      t.closesRun (·.isBare "\x7d") (Nesting.top.shown r.stage)[j]? =
        t.closesRun (isPlaceholder r.stage) (Nesting.top.shown r.stage)[j]? := by
    intro j t ht
    unfold Token.closesRun
    by_cases hplus : t.value = "+"
    · refine congrArg (runEnds.contains t.value || t.value == "+" && ·) ?_
      cases hc : (Nesting.top.shown r.stage)[j]? with
      | none => rfl
      | some c =>
        obtain ⟨hj, -⟩ := List.getElem?_eq_some_iff.mp hc
        show c.isBare "\x7d" = isPlaceholder r.stage c
        cases hbare : c.isBare "\x7d" with
        | false => rw [isPlaceholder, hbare, Bool.false_and]
        | true => exact (h.placeholder j hj c hc t ht hbare hplus).symm
    · rw [beq_eq_false_iff_ne.mpr hplus, Bool.false_and, Bool.false_and]
  cases hwords : Nesting.top.shown r.stage with
  | nil => simp
  | cons c ws =>
    rw [hwords] at horder' hcloses
    simp only [List.head?_cons, Option.any_some, Option.mem_some_iff, exists_eq_left']
    refine and_congr_right fun hfind => runOpen_congr (fun t ht => ?_) hcloses
    rcases List.mem_cons.mp ht with rfl | ht
    · have hopens : t.opensRun = false := by
        rw [Token.opensRun, (Token.eq_of_isBare hfind).2]
        exact Bool.and_false _
      rw [hopens, Bool.false_and]
    · have hbehind : c.stop ≤ t.start := List.rel_of_pairwise_cons horder'.2 ht
      rw [decide_eq_true hbehind, Bool.and_true]

/-! ## Which semicolons cut -/

theorem SemicolonAt.inOrder_stage {front : List Token} {t : Token} (h : SemicolonAt segment front t)
    (keeps : Reading → Bool) : InOrder (Reading.ofTokens keeps front).stage := by
  obtain ⟨behind, htokens⟩ := h.exists_behind
  refine (inOrder_tokenizeFrom 0 segment).sublist ?_
  show (Reading.ofTokens keeps front).stage.Sublist (tokenize segment)
  rw [htokens]
  exact (Reading.suffix_ofTokens keeps front).2.sublist.trans (List.sublist_append_left ..)

/-- If a `;` is read alike up to here, the segment is cut at it as its stage wants if and only if the
pipeline wants the same. -/
theorem SemicolonAt.cut_iff {front : List Token} {t : Token} (h : SemicolonAt segment front t)
    (hsame : Reading.ofTokens byPipeline front = Reading.ofTokens (byStage segment) front) :
    (t ∈ sequenceCuts segment ↔ ¬(Reading.ofTokens (byStage segment) front).RunInStage segment) ↔
      ((Reading.ofTokens (byStage segment) front).RunInPipeline ↔
        (Reading.ofTokens (byStage segment) front).RunInStage segment) := by
  rw [h.mem_sequenceCuts_iff, hsame, not_iff_not]

/-- A segment is cut at a `;` outside of groups if and only if no run is open in the pipeline in front
of it, taken as one command. So it is cut exactly where no run of the stage is open if and only if the
stage of each `;` has an open run just if the pipeline has one, as in a pipeline of one stage that
starts with its command word. -/
theorem semicolons_cut_iff (segment : Text) :
    (∀ front t, SemicolonAt segment front t →
      (t ∈ sequenceCuts segment ↔ ¬(Reading.ofTokens byPipeline front).RunInPipeline)) ∧
    ((∀ front t, SemicolonAt segment front t → (t ∈ sequenceCuts segment ↔
        ¬(Reading.ofTokens (byStage segment) front).RunInStage segment)) ↔
      ∀ front t, SemicolonAt segment front t →
        ((Reading.ofTokens (byStage segment) front).RunInPipeline ↔
          (Reading.ofTokens (byStage segment) front).RunInStage segment)) ∧
    ∀ front t, SemicolonAt segment front t →
      (Reading.ofTokens (byStage segment) front).IsPlain segment →
      ((Reading.ofTokens (byStage segment) front).RunInPipeline ↔
        (Reading.ofTokens (byStage segment) front).RunInStage segment) := by
  refine ⟨fun _ _ => SemicolonAt.mem_sequenceCuts_iff, ⟨fun hcuts front t h => ?_,
    fun hruns front t h => ?_⟩, fun front t h hplain => hplain.run_iff (h.inOrder_stage _)⟩
  all_goals obtain ⟨behind, htokens⟩ := h.exists_behind
  · refine (h.cut_iff (ofTokens_congr (fun front t h hsame => ?_) htokens)).mp (hcuts front t h)
    exact decide_eq_decide.mpr ((h.cut_iff hsame).mp (hcuts front t h))
  · refine (h.cut_iff (ofTokens_congr (fun front t h _ => ?_) htokens)).mpr (hruns front t h)
    exact decide_eq_decide.mpr (hruns front t h)

/-- A run that its `;` closes, and a `;` between commands. -/
def printedSearch : Text := "find . -exec rm \x7b\x7d ; -print ; pwd"

/-- The tokens of that segment. -/
def printedTokens : List Token :=
  [⟨"find".toList, 0, 4, none⟩, ⟨['.'], 5, 6, none⟩, ⟨"-exec".toList, 7, 12, none⟩,
    ⟨"rm".toList, 13, 15, none⟩, ⟨['{'], 16, 17, none⟩, ⟨['}'], 17, 18, none⟩,
    ⟨[';'], 19, 20, none⟩, ⟨"-print".toList, 21, 27, none⟩, ⟨[';'], 28, 29, none⟩,
    ⟨"pwd".toList, 30, 33, none⟩]

theorem semicolons_cut_printedSearch :
    (∃ front t, SemicolonAt printedSearch front t ∧ t ∉ sequenceCuts printedSearch ∧
      (Reading.ofTokens (byStage printedSearch) front).RunInStage printedSearch) ∧
    (∃ front t, SemicolonAt printedSearch front t ∧ t ∈ sequenceCuts printedSearch ∧
      ¬(Reading.ofTokens (byStage printedSearch) front).RunInStage printedSearch) := by
  have htokens : tokenize printedSearch = printedTokens := by decide +kernel
  have hfirst : SemicolonAt printedSearch (printedTokens.take 6) printedTokens[6] :=
    ⟨⟨printedTokens.drop 7, htokens⟩, rfl, rfl⟩
  have hsecond : SemicolonAt printedSearch (printedTokens.take 8) printedTokens[8] :=
    ⟨⟨printedTokens.drop 9, htokens⟩, rfl, rfl⟩
  obtain ⟨hpipeline, -, hplain⟩ := semicolons_cut_iff printedSearch
  refine ⟨⟨_, _, hfirst, ?_, ?_⟩, ⟨_, _, hsecond, ?_, ?_⟩⟩
  · rw [hpipeline _ _ hfirst]
    decide
  · refine (hplain _ _ hfirst ⟨by decide +kernel, by decide +kernel, by decide +kernel⟩).mp ?_
    decide
  · refine (hpipeline _ _ hsecond).mpr ?_
    decide
  · rw [← hplain _ _ hsecond ⟨by decide +kernel, by decide +kernel, by decide +kernel⟩]
    decide +kernel

/-- A run of a `find` behind a pipe. -/
def pipedSearch : Text := "ls | find . -exec rm \x7b\x7d ; pwd"

theorem piped_run_cut :
    splitSequence pipedSearch = ["ls | find . -exec rm \x7b\x7d", "pwd"] ∧
      ∃ front t, SemicolonAt pipedSearch front t ∧ t ∈ sequenceCuts pipedSearch ∧
        (Reading.ofTokens (byStage pipedSearch) front).RunInStage pipedSearch :=
  ⟨by decide +kernel, (tokenize pipedSearch).take 8, (tokenize pipedSearch)[8],
    ⟨⟨(tokenize pipedSearch).drop 9, by decide +kernel⟩, by decide +kernel, by decide +kernel⟩,
    by decide +kernel, by decide +kernel⟩

end CrossShell
