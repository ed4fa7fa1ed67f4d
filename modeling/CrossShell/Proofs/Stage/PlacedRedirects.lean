import CrossShell.Proofs.Stage.Finish
import CrossShell.Proofs.Token.Wholeness

/-!
# Redirections where they stand

A redirection of a stage is its operator and, if that does not carry it, its target: the token
behind. A word of the command stands before a redirection or behind it, never in it. When a
converted command is finished, each redirection is put around it in turn; of several inputs only the
last one is.

* `placedRedirects`: the redirections of a stage, in order.
* `redirects_eq_flatMap`: they are those of the invocation.
* `apart_of_mem_words`: no word stands within a redirection.
* `applied`: the redirections that count.
* `Invocation.finish_eq_foldl`: finishing puts these around a command, one by one.
-/

namespace CrossShell

/-- A redirection as it stands in a stage. -/
structure PlacedRedirect where
  /-- The operator, with what it carries. -/
  operator : TaggedToken
  /-- The target, if it is a token of its own. -/
  target : Option TaggedToken
  deriving DecidableEq, Repr

namespace PlacedRedirect

variable (ρ : PlacedRedirect)

/-- Where it starts. -/
def start : Nat := ρ.operator.token.start

/-- Where it ends. -/
def stop : Nat := (ρ.target.getD ρ.operator).token.stop

/-- The texts of its tokens. -/
def texts : List Text := ρ.operator.value :: ρ.target.toList.map TaggedToken.value

/-- Whether it is an input. -/
def isInput : Bool := ρ.operator.value.head? == some '<'

/-- Where an input comes from. -/
def source : Text :=
  match ρ.target with
  | some t => t.value
  | none => ρ.operator.value.tail

/-- An input has one source, and no output has a target that reads as an input. -/
def Intact : Prop :=
  (ρ.isInput = true → (ρ.operator.value = ['<'] ↔ ρ.target.isSome = true)) ∧
    (ρ.isInput = false → ∀ t ∈ ρ.target.toList, t.value.head? ≠ some '<')

instance : Decidable ρ.Intact := inferInstanceAs (Decidable (_ ∧ _))

/-- A line with a redirection put around it. -/
def putAround (line : Text) (ρ : PlacedRedirect) : Text :=
  if ρ.isInput then "Get-Content " ++ ρ.source ++ " | " ++ line
  else joinWords (line :: ρ.texts.map (Text.replace "/dev/null" "$null"))

end PlacedRedirect

/-! ## Reading -/

/-- The redirections among tokens, if an operator before them is `waiting` for its target. -/
def redirectsIn : (waiting : Option TaggedToken) → List TaggedToken → List PlacedRedirect
  | none, [] => []
  | some operator, [] => [⟨operator, none⟩]
  | some operator, t :: ts => ⟨operator, some t⟩ :: redirectsIn none ts
  | none, t :: ts =>
    if t.token.isRedirect then
      if Invocation.needsTarget t.value then redirectsIn (some t) ts
      else ⟨t, none⟩ :: redirectsIn none ts
    else redirectsIn none ts

/-- The tokens of a stage around its command word. -/
def tokensAround (stage : Text) : List TaggedToken :=
  (tagStage stage).eraseP (·.role == .command)

/-- The redirections of a stage. One before the command word may find its target behind it. -/
def placedRedirects (stage : Text) : List PlacedRedirect := redirectsIn none (tokensAround stage)

namespace Invocation

/-- Whether words are kept does not matter to redirections. -/
theorem redirects_sortTokens_false (pending : Bool) (ts : List TaggedToken) :
    (sortTokens false pending ts).redirects = (sortTokens true pending ts).redirects := by
  induction ts generalizing pending with
  | nil => cases pending <;> rfl
  | cons t ts ih =>
    cases pending with
    | true => simp only [sortTokens, ih]
    | false =>
      simp only [sortTokens, Bool.false_eq_true, if_false, if_true]
      split <;> simp only [ih]

theorem sortTokens_append (pending : Bool) (ts us : List TaggedToken) :
    (sortTokens true pending (ts ++ us)).words = (sortTokens true pending ts).words ++
        (sortTokens true (leavesPending pending ts) us).words ∧
      (sortTokens true pending (ts ++ us)).redirects = (sortTokens true pending ts).redirects ++
        (sortTokens true (leavesPending pending ts) us).redirects := by
  induction ts generalizing pending with
  | nil => cases pending <;> exact ⟨rfl, rfl⟩
  | cons t ts ih =>
    cases pending with
    | true =>
      obtain ⟨hwords, hredirects⟩ := ih false
      simp only [List.cons_append, sortTokens, leavesPending, hwords, hredirects, and_self]
    | false =>
      cases hredirect : t.token.isRedirect with
      | true =>
        obtain ⟨hwords, hredirects⟩ := ih (needsTarget t.value)
        simp only [List.cons_append, sortTokens, leavesPending, hredirect, if_true, Bool.true_and,
          hwords, hredirects, and_self]
      | false =>
        obtain ⟨hwords, hredirects⟩ := ih false
        simp only [List.cons_append, sortTokens, leavesPending, hredirect, Bool.false_eq_true,
          if_false, if_true, Bool.false_and, hwords, hredirects, and_self]

theorem eraseP_eq_append (test : TaggedToken → Bool) (ts : List TaggedToken) :
    ts.eraseP test = ts.takeWhile (!test ·) ++ (ts.dropWhile (!test ·)).tail := by
  induction ts with
  | nil => rfl
  | cons t ts ih => cases h : test t <;> simp [h, ih]

/-- The words and redirections of an invocation, sorted out of the tokens around its command. -/
theorem sortTokens_tokensAround {stage : Text} {inv : Invocation}
    (hinv : ofTagged? stage (tagStage stage) = some inv) :
    inv.words <:+ (sortTokens true false (tokensAround stage)).words ∧
      inv.redirects = (sortTokens true false (tokensAround stage)).redirects := by
  obtain ⟨command, rest, hrest⟩ :
      ∃ command rest, (tagStage stage).dropWhile (·.role != .command) = command :: rest := by
    refine List.exists_cons_of_ne_nil fun hnil => ?_
    rw [ofTagged?, hnil] at hinv
    cases hinv
  have haround : tokensAround stage = (tagStage stage).takeWhile (·.role != .command) ++ rest := by
    have herase := eraseP_eq_append (·.role == .command) (tagStage stage)
    rw [tokensAround, herase]
    exact congrArg (_ ++ List.tail ·) hrest
  rw [ofTagged?, hrest] at hinv
  obtain rfl := Option.some.inj hinv
  obtain ⟨hwords, hredirects⟩ :=
    sortTokens_append false ((tagStage stage).takeWhile (·.role != .command)) rest
  rw [haround, hwords, hredirects, redirects_sortTokens_false]
  exact ⟨List.suffix_append _ _, rfl⟩

theorem flatMap_texts_redirectsIn (waiting : Option TaggedToken) (ts : List TaggedToken) :
    (redirectsIn waiting ts).flatMap PlacedRedirect.texts =
      waiting.toList.map TaggedToken.value ++ (sortTokens true waiting.isSome ts).redirects := by
  induction ts generalizing waiting with
  | nil => cases waiting <;> rfl
  | cons t ts ih =>
    cases waiting with
    | some operator =>
      rw [redirectsIn, List.flatMap_cons, ih none]
      rfl
    | none =>
      rw [redirectsIn, Option.isSome_none, sortTokens]
      cases t.token.isRedirect with
      | false => exact ih none
      | true =>
        cases hneeds : needsTarget t.value with
        | false =>
          rw [if_pos rfl, if_neg Bool.false_ne_true, List.flatMap_cons, ih none]
          rfl
        | true =>
          rw [if_pos rfl, if_pos rfl, ih (some t)]
          rfl

/-- The redirections of an invocation are those of its stage. -/
theorem redirects_eq_flatMap {stage : Text} {inv : Invocation}
    (hinv : ofTagged? stage (tagStage stage) = some inv) :
    inv.redirects = (placedRedirects stage).flatMap PlacedRedirect.texts := by
  rw [(sortTokens_tokensAround hinv).2, placedRedirects, flatMap_texts_redirectsIn]
  rfl

end Invocation

/-! ## Places -/

theorem map_token_tagRolesFrom (due : Bool) (ts : List Token) :
    (tagRolesFrom due ts).map TaggedToken.token = ts := by
  induction ts generalizing due with
  | nil => rfl
  | cons t ts ih => rw [tagRolesFrom, List.map_cons, ih]

/-- The tokens around a command stand one behind the other. -/
theorem inOrder_tokensAround (stage : Text) :
    InOrder ((tokensAround stage).map TaggedToken.token) := by
  have hstage : (tagStage stage).map TaggedToken.token = fuse stage (tokenize stage) :=
    map_token_tagRolesFrom true _
  have hall : InOrder ((tagStage stage).map TaggedToken.token) := by
    rw [hstage]
    exact inOrder_fuseWith Fusion.all (inOrder_tokenizeFrom 0 stage)
  exact hall.sublist (List.eraseP_sublist.map _)

section Places

variable {ts : List TaggedToken} {waiting : Option TaggedToken} {ρ : PlacedRedirect}

theorem mem_of_mem_words {pending : Bool} {u : TaggedToken}
    (h : u ∈ (Invocation.sortTokens true pending ts).words) : u ∈ ts := by
  induction ts generalizing pending with
  | nil => cases pending <;> cases h
  | cons t ts ih =>
    cases pending with
    | true => exact List.mem_cons_of_mem _ (ih h)
    | false =>
      rw [Invocation.sortTokens] at h
      split at h
      · exact List.mem_cons_of_mem _ (ih h)
      · rcases List.mem_cons.mp h with rfl | h
        · exact List.mem_cons_self
        · exact List.mem_cons_of_mem _ (ih h)

theorem operator_mem (h : ρ ∈ redirectsIn waiting ts) : ρ.operator ∈ waiting.toList ++ ts := by
  induction ts generalizing waiting with
  | nil => cases waiting <;> simp_all [redirectsIn]
  | cons t ts ih =>
    cases waiting with
    | some operator =>
      rcases List.mem_cons.mp h with rfl | h
      · exact List.mem_cons_self
      · exact List.mem_cons_of_mem _ (List.mem_cons_of_mem _ (ih h))
    | none =>
      rw [redirectsIn] at h
      split at h
      · split at h
        · exact ih h
        · rcases List.mem_cons.mp h with rfl | h
          · exact List.mem_cons_self
          · exact List.mem_cons_of_mem _ (ih h)
      · exact List.mem_cons_of_mem _ (ih h)

/-- In tokens that stand in order, a token ends before what follows it starts. -/
theorem InOrder.stop_le {t : TaggedToken} (h : InOrder ((t :: ts).map TaggedToken.token))
    {u : TaggedToken} (hu : u ∈ ts) : t.token.stop ≤ u.token.start :=
  (List.pairwise_cons.mp h.2).1 u.token (List.mem_map_of_mem hu)

theorem InOrder.tail {t : TaggedToken} (h : InOrder ((t :: ts).map TaggedToken.token)) :
    InOrder (ts.map TaggedToken.token) :=
  h.sublist (List.sublist_cons_self _ _)

/-- A word stands before a redirection or behind it. -/
theorem apart_of_mem_words (hord : InOrder ((waiting.toList ++ ts).map TaggedToken.token))
    (hρ : ρ ∈ redirectsIn waiting ts) {u : TaggedToken}
    (hu : u ∈ (Invocation.sortTokens true waiting.isSome ts).words) :
    u.token.stop ≤ ρ.start ∨ ρ.stop ≤ u.token.start := by
  induction ts generalizing waiting with
  | nil => cases waiting <;> cases hu
  | cons t ts ih =>
    cases waiting with
    | some operator =>
      have hbehind : InOrder ((t :: ts).map TaggedToken.token) := hord.tail
      rcases List.mem_cons.mp hρ with rfl | hρ
      · exact .inr (hbehind.stop_le (mem_of_mem_words hu))
      · exact @ih none hbehind.tail hρ hu
    | none =>
      rw [Option.isSome_none, Invocation.sortTokens] at hu
      rw [redirectsIn] at hρ
      split at hu
      · rename_i hredirect
        rw [if_pos hredirect] at hρ
        cases hneeds : Invocation.needsTarget t.value with
        | true =>
          rw [hneeds] at hu
          rw [if_pos hneeds] at hρ
          exact ih hord hρ hu
        | false =>
          rw [hneeds] at hu
          rw [if_neg (by simp [hneeds])] at hρ
          rcases List.mem_cons.mp hρ with rfl | hρ
          · exact .inr (hord.stop_le (mem_of_mem_words hu))
          · exact @ih none hord.tail hρ hu
      · rename_i hword
        rw [if_neg hword] at hρ
        rcases List.mem_cons.mp hu with rfl | hu
        · exact .inl (hord.stop_le (operator_mem hρ))
        · exact @ih none hord.tail hρ hu

/-- Redirections stand one behind the other. -/
theorem pairwise_redirectsIn (hord : InOrder ((waiting.toList ++ ts).map TaggedToken.token)) :
    (redirectsIn waiting ts).Pairwise fun ρ σ => ρ.start < σ.start := by
  -- An operator stands in front of the operators among the tokens behind it.
  have hfirst {t : TaggedToken} {us vs : List TaggedToken}
      (h : InOrder ((t :: us).map TaggedToken.token)) (hsub : vs ⊆ us) :
      ∀ σ ∈ redirectsIn none vs, t.token.start < σ.start := by
    intro σ hσ
    have hstop := h.stop_le (hsub (operator_mem hσ))
    have hlt := h.1 t.token (List.mem_map_of_mem List.mem_cons_self)
    exact Nat.lt_of_lt_of_le hlt hstop
  induction ts generalizing waiting with
  | nil => cases waiting <;> simp [redirectsIn]
  | cons t ts ih =>
    cases waiting with
    | some operator =>
      exact List.pairwise_cons.mpr ⟨hfirst hord (List.subset_cons_self t ts), ih hord.tail.tail⟩
    | none =>
      rw [redirectsIn]
      split
      · split
        · exact ih hord
        · exact List.pairwise_cons.mpr ⟨hfirst hord (List.Subset.refl ts), ih hord.tail⟩
      · exact ih hord.tail

end Places

theorem pairwise_placedRedirects (stage : Text) :
    (placedRedirects stage).Pairwise fun ρ σ => ρ.start < σ.start :=
  pairwise_redirectsIn (inOrder_tokensAround stage)

/-! ## Redirections that count -/

/-- The redirections that count: of several inputs, only the last. -/
def applied : List PlacedRedirect → List PlacedRedirect
  | [] => []
  | ρ :: ρs => if ρ.isInput && ρs.any PlacedRedirect.isInput then applied ρs else ρ :: applied ρs

theorem applied_subset (ρs : List PlacedRedirect) : applied ρs ⊆ ρs := by
  induction ρs with
  | nil => exact List.Subset.refl _
  | cons ρ ρs ih =>
    rw [applied]
    split
    · exact List.subset_cons_of_subset ρ ih
    · exact List.cons_subset_cons ρ ih

/-- A redirection does not count exactly if it is an input and another one stands behind it. -/
theorem notMem_applied_iff {ρs : List PlacedRedirect} (h : ρs.Pairwise fun ρ σ => ρ.start < σ.start)
    {ρ : PlacedRedirect} (hρ : ρ ∈ ρs) :
    ρ ∉ applied ρs ↔ ρ.isInput = true ∧ ∃ σ ∈ ρs, σ.isInput = true ∧ ρ.start < σ.start := by
  induction ρs with
  | nil => cases hρ
  | cons τ ρs ih =>
    obtain ⟨hfirst, hrest⟩ := List.pairwise_cons.mp h
    rcases List.mem_cons.mp hρ with rfl | hρ
    · have hlater : (∃ σ ∈ ρ :: ρs, σ.isInput = true ∧ ρ.start < σ.start) ↔
          ρs.any PlacedRedirect.isInput = true := by
        simp only [List.mem_cons, exists_eq_or_imp, Nat.lt_irrefl, and_false, false_or,
          List.any_eq_true]
        exact exists_congr fun σ => and_congr_right fun hσ => and_iff_left (hfirst σ hσ)
      have hgone : ρ ∉ applied ρs :=
        fun hmem => Nat.lt_irrefl _ (hfirst ρ (applied_subset ρs hmem))
      rw [hlater, ← Bool.and_eq_true, applied]
      split <;> simp_all
    · have hlt := hfirst ρ hρ
      have hne : ρ ≠ τ := by
        rintro rfl
        exact Nat.lt_irrefl _ hlt
      have hlater : (∃ σ ∈ τ :: ρs, σ.isInput = true ∧ ρ.start < σ.start) ↔
          ∃ σ ∈ ρs, σ.isInput = true ∧ ρ.start < σ.start := by
        simp [Nat.not_lt.mpr (Nat.le_of_lt hlt)]
      have hmem : ρ ∈ applied (τ :: ρs) ↔ ρ ∈ applied ρs := by
        rw [applied]
        split <;> simp [hne]
      rw [hmem, hlater, ih hrest hρ]

/-! ## Finishing -/

/-- The source of the last input. -/
def lastSource (ρs : List PlacedRedirect) : Option Text :=
  ((ρs.filter PlacedRedirect.isInput).getLast?).map PlacedRedirect.source

/-- The texts of the redirections of output. -/
def outputTexts (ρs : List PlacedRedirect) : List Text :=
  (ρs.filter (!·.isInput)).flatMap fun ρ => ρ.texts.map (Text.replace "/dev/null" "$null")

theorem outputTexts_of_input {ρ : PlacedRedirect} (h : ρ.isInput = true)
    (ρs : List PlacedRedirect) : outputTexts (ρ :: ρs) = outputTexts ρs := by
  simp [outputTexts, h]

theorem outputTexts_of_output {ρ : PlacedRedirect} (h : ρ.isInput = false)
    (ρs : List PlacedRedirect) : outputTexts (ρ :: ρs) =
      ρ.texts.map (Text.replace "/dev/null" "$null") ++ outputTexts ρs := by
  simp [outputTexts, h]

theorem lastSource_of_output {ρ : PlacedRedirect} (h : ρ.isInput = false)
    (ρs : List PlacedRedirect) : lastSource (ρ :: ρs) = lastSource ρs := by
  simp [lastSource, h]

theorem lastSource_of_input {ρ : PlacedRedirect} (h : ρ.isInput = true)
    (ρs : List PlacedRedirect) : lastSource (ρ :: ρs) = (lastSource ρs).or (some ρ.source) := by
  rw [lastSource, List.filter_cons_of_pos h, List.getLast?_cons, lastSource]
  cases (ρs.filter PlacedRedirect.isInput).getLast? <;> rfl

theorem lastSource_eq_none {ρs : List PlacedRedirect}
    (h : ρs.any PlacedRedirect.isInput = false) : lastSource ρs = none := by
  have hnil : ρs.filter PlacedRedirect.isInput = [] := by simpa using h
  rw [lastSource, hnil]
  rfl

theorem lastSource_isSome {ρs : List PlacedRedirect}
    (h : ρs.any PlacedRedirect.isInput = true) : (lastSource ρs).isSome = true := by
  simpa [lastSource] using h

theorem dropFront?_of_head? {t : Text} (h : t.head? ≠ some '<') :
    Text.dropFront? t "<" = none := by
  cases t with
  | nil => rfl
  | cons c cs =>
    have hc : c ≠ '<' := by simpa using h
    simp [Text.dropFront?, hc.symm]

namespace Invocation

/-- A text that is no input is handed on. -/
theorem inputAndOutputs_output {t : Text} (h : t.head? ≠ some '<') (input : Option Text)
    (ts : List Text) : inputAndOutputs input (t :: ts) = ((inputAndOutputs input ts).1,
      Text.replace "/dev/null" "$null" t :: (inputAndOutputs input ts).2) := by
  have hne : t ≠ "<".toList := by
    rintro rfl
    exact h rfl
  rw [inputAndOutputs.eq_def]
  simp only [if_neg hne, dropFront?_of_head? h]

/-- An input operator takes the next text for its source. -/
theorem inputAndOutputs_separate (source : Text) (input : Option Text) (ts : List Text) :
    inputAndOutputs input (['<'] :: source :: ts) = inputAndOutputs (some source) ts := by
  rw [inputAndOutputs.eq_def]
  rfl

/-- An input operator may carry its source. -/
theorem inputAndOutputs_joined {source : Text} (h : source ≠ []) (input : Option Text)
    (ts : List Text) :
    inputAndOutputs input (('<' :: source) :: ts) = inputAndOutputs (some source) ts := by
  have hne : '<' :: source ≠ "<".toList := by simpa using h
  have hdrop : Text.dropFront? ('<' :: source) "<" = some source := rfl
  rw [inputAndOutputs.eq_def]
  simp only [if_neg hne, hdrop]

/-- The last input counts, and every output. -/
theorem inputAndOutputs_flatMap {ρs : List PlacedRedirect} (h : ∀ ρ ∈ ρs, ρ.Intact)
    (input : Option Text) : inputAndOutputs input (ρs.flatMap PlacedRedirect.texts) =
      ((lastSource ρs).or input, outputTexts ρs) := by
  induction ρs generalizing input with
  | nil => rfl
  | cons ρ ρs ih =>
    have hrest := ih fun σ hσ => h σ (List.mem_cons_of_mem _ hσ)
    have hintact := h ρ List.mem_cons_self
    obtain ⟨operator, target⟩ := ρ
    cases hinput : PlacedRedirect.isInput ⟨operator, target⟩ with
    | true =>
      have hoperator := hintact.1 hinput
      rw [lastSource_of_input hinput, outputTexts_of_input hinput, List.flatMap_cons,
        Option.or_assoc, Option.some_or]
      cases target with
      | some t =>
        have hvalue : operator.value = ['<'] := hoperator.mpr rfl
        rw [PlacedRedirect.texts, hvalue]
        exact (inputAndOutputs_separate t.value input _).trans (hrest (some t.value))
      | none =>
        obtain ⟨source, hvalue⟩ : ∃ source, operator.value = '<' :: source := by
          have hhead : operator.value.head? = some '<' := by
            simpa [PlacedRedirect.isInput] using hinput
          obtain ⟨source, hsource⟩ := List.head?_eq_some_iff.mp hhead
          exact ⟨source, hsource⟩
        have hne : source ≠ [] := by
          rintro rfl
          exact absurd (hoperator.mp hvalue) (by simp)
        rw [PlacedRedirect.texts, PlacedRedirect.source, hvalue]
        exact (inputAndOutputs_joined hne input _).trans (hrest (some source))
    | false =>
      have htarget := hintact.2 hinput
      have hhead : operator.value.head? ≠ some '<' := by
        simpa [PlacedRedirect.isInput] using hinput
      rw [lastSource_of_output hinput, outputTexts_of_output hinput, List.flatMap_cons,
        PlacedRedirect.texts, List.cons_append, inputAndOutputs_output hhead]
      cases target with
      | none =>
        rw [Option.toList_none, List.map_nil, List.nil_append, hrest input]
        rfl
      | some t =>
        rw [Option.toList_some, List.map_singleton, List.singleton_append,
          inputAndOutputs_output (htarget t (by simp)), hrest input]
        rfl

end Invocation

/-- The redirections that count, put around a line one by one. -/
theorem foldl_putAround_applied {line : Text} (hline : line ≠ []) (ρs : List PlacedRedirect) :
    (applied ρs).foldl PlacedRedirect.putAround line =
      Invocation.sourceText (lastSource ρs) ++ appendWord line (joinWords (outputTexts ρs)) := by
  induction ρs generalizing line with
  | nil => rfl
  | cons ρ ρs ih =>
    rw [applied]
    cases hinput : ρ.isInput with
    | false =>
      have hput : ρ.putAround line =
          appendWord line (joinWords (ρ.texts.map (Text.replace "/dev/null" "$null"))) := by
        rw [PlacedRedirect.putAround, hinput, ← joinWords_cons]
        rfl
      rw [Bool.false_and, if_neg Bool.false_ne_true, List.foldl_cons, hput,
        ih (appendWord_ne_nil hline _), lastSource_of_output hinput, outputTexts_of_output hinput,
        joinWords_append, appendWord_assoc]
    | true =>
      rw [outputTexts_of_input hinput, lastSource_of_input hinput, Bool.true_and]
      cases hlater : ρs.any PlacedRedirect.isInput with
      | true =>
        obtain ⟨source, hsource⟩ := Option.isSome_iff_exists.mp (lastSource_isSome hlater)
        rw [if_pos rfl, ih hline, hsource, Option.some_or]
      | false =>
        have hput : ρ.putAround line = Invocation.sourceText (some ρ.source) ++ line := by
          rw [PlacedRedirect.putAround, hinput]
          rfl
        rw [if_neg Bool.false_ne_true, List.foldl_cons, hput, ih (by simp [hline]),
          lastSource_eq_none hlater, Option.none_or, appendWord_append hline]
        rfl

/-- Finishing puts the redirections that count around a command, one by one. -/
theorem Invocation.finish_eq_foldl {stage : Text} {inv : Invocation}
    (hinv : ofTagged? stage (tagStage stage) = some inv)
    (hintact : ∀ ρ ∈ placedRedirects stage, ρ.Intact) {body : Text} (hbody : body ≠ []) :
    inv.finish body = (applied (placedRedirects stage)).foldl PlacedRedirect.putAround body := by
  rw [finish_eq, redirects_eq_flatMap hinv, inputAndOutputs_flatMap hintact, Option.or_none,
    foldl_putAround_applied hbody]

end CrossShell
