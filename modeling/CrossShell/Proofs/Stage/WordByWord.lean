import CrossShell.Proofs.Lint.Agreement
import CrossShell.Proofs.Stage.PlacedRedirects
import CrossShell.Proofs.Token.Partition
import Mathlib.Data.List.Forall2

/-!
# Commands converted word by word

A command with a mapping is converted as a whole or not at all. If it is, each of its words has its
place in the converted command: a flag becomes what the mapping says, which may be nothing, and any
other word stays, at most without quotes that it does not need.

* `Invocation.words_eq_filter`: the words of a command are the tokens behind its name that belong to
  no redirection.
* `Mapping.Becomes`: what takes the place of a word.
* `spaced`: words put one behind the other.
* `Mapping.Accepts`: when there is a converted command.
* `mapped_stage_all_or_nothing`: the stages of commands that have a mapping.
-/

namespace CrossShell

/-! ## The words of a command -/

/-- The tokens of a redirection. -/
def PlacedRedirect.tokens (ρ : PlacedRedirect) : List TaggedToken := ρ.operator :: ρ.target.toList

/-- The tokens of redirections among tokens, if an operator before them is `waiting`. -/
def redirectTokensIn (waiting : Option TaggedToken) (ts : List TaggedToken) : List TaggedToken :=
  (redirectsIn waiting ts).flatMap PlacedRedirect.tokens

/-- The tokens behind the command word of a stage. -/
def tokensBehind (stage : Text) : List TaggedToken :=
  ((tagStage stage).dropWhile (·.role != .command)).tail

section Words

variable {t operator : TaggedToken} {ts : List TaggedToken} {waiting : Option TaggedToken}

theorem redirectTokensIn_target (operator t : TaggedToken) (ts : List TaggedToken) :
    redirectTokensIn (some operator) (t :: ts) = operator :: t :: redirectTokensIn none ts := rfl

theorem redirectTokensIn_word (h : t.token.isRedirect = false) :
    redirectTokensIn none (t :: ts) = redirectTokensIn none ts := by
  unfold redirectTokensIn
  rw [redirectsIn, h]
  rfl

theorem redirectTokensIn_operator (h : t.token.isRedirect = true)
    (hneeds : Invocation.needsTarget t.value = true) :
    redirectTokensIn none (t :: ts) = redirectTokensIn (some t) ts := by
  unfold redirectTokensIn
  rw [redirectsIn, h, hneeds]
  rfl

theorem redirectTokensIn_whole (h : t.token.isRedirect = true)
    (hneeds : Invocation.needsTarget t.value = false) :
    redirectTokensIn none (t :: ts) = t :: redirectTokensIn none ts := by
  unfold redirectTokensIn
  rw [redirectsIn, h, hneeds]
  rfl

theorem redirectTokensIn_sublist (waiting : Option TaggedToken) (ts : List TaggedToken) :
    (redirectTokensIn waiting ts).Sublist (waiting.toList ++ ts) := by
  induction ts generalizing waiting with
  | nil => cases waiting <;> exact .refl _
  | cons t ts ih =>
    cases waiting with
    | some operator =>
      rw [redirectTokensIn_target]
      exact ((ih none).cons_cons t).cons_cons operator
    | none =>
      cases hredirect : t.token.isRedirect with
      | false =>
        rw [redirectTokensIn_word hredirect]
        exact (ih none).cons t
      | true =>
        cases hneeds : Invocation.needsTarget t.value with
        | true =>
          rw [redirectTokensIn_operator hredirect hneeds]
          exact ih (some t)
        | false =>
          rw [redirectTokensIn_whole hredirect hneeds]
          exact (ih none).cons_cons t

theorem mem_redirectTokensIn_some (operator : TaggedToken) (ts : List TaggedToken) :
    operator ∈ redirectTokensIn (some operator) ts := by
  cases ts with
  | nil => exact List.mem_singleton_self _
  | cons t ts => exact List.mem_cons_self

/-- A list that lacks an element is filtered alike whether that element is kept out or not. -/
theorem filter_notMem_cons {α : Type} [DecidableEq α] {a : α} {as excluded : List α}
    (h : a ∉ as) : as.filter (· ∉ a :: excluded) = as.filter (· ∉ excluded) := by
  refine List.filter_congr fun b hb => ?_
  have hne : b ≠ a := fun heq => h (heq ▸ hb)
  simp [hne]

/-- The words among tokens are those that belong to no redirection. -/
theorem words_sortTokens_eq_filter (waiting : Option TaggedToken) (ts : List TaggedToken)
    (h : (waiting.toList ++ ts).Nodup) :
    (Invocation.sortTokens true waiting.isSome ts).words =
      ts.filter (· ∉ redirectTokensIn waiting ts) := by
  induction ts generalizing waiting with
  | nil => cases waiting <;> rfl
  | cons t ts ih =>
    cases waiting with
    | some operator =>
      obtain ⟨hoperator, hrest⟩ : operator ∉ t :: ts ∧ (t :: ts).Nodup := List.nodup_cons.mp h
      obtain ⟨ht, hts⟩ := List.nodup_cons.mp hrest
      have hfilter : (t :: ts).filter (· ∉ operator :: t :: redirectTokensIn none ts) =
          ts.filter (· ∉ redirectTokensIn none ts) := by
        rw [filter_notMem_cons hoperator, List.filter_cons_of_neg (by simp),
          filter_notMem_cons ht]
      rw [redirectTokensIn_target, hfilter, ← ih none hts]
      rfl
    | none =>
      obtain ⟨ht, hts⟩ := List.nodup_cons.mp h
      cases hredirect : t.token.isRedirect with
      | false =>
        have hword : t ∉ redirectTokensIn none ts :=
          fun hmem => ht ((redirectTokensIn_sublist none ts).subset hmem)
        rw [redirectTokensIn_word hredirect, List.filter_cons_of_pos (by simpa using hword),
          ← ih none hts, Option.isSome_none, Invocation.sortTokens, hredirect]
        rfl
      | true =>
        rw [Option.isSome_none, Invocation.sortTokens, hredirect]
        cases hneeds : Invocation.needsTarget t.value with
        | true =>
          have hself := mem_redirectTokensIn_some t ts
          rw [redirectTokensIn_operator hredirect hneeds,
            List.filter_cons_of_neg (by simpa using hself), ← ih (some t) h]
          rfl
        | false =>
          rw [redirectTokensIn_whole hredirect hneeds, List.filter_cons_of_neg (by simp),
            filter_notMem_cons ht, ← ih none hts]
          rfl

end Words

theorem nodup_tokensAround (stage : Text) : (tokensAround stage).Nodup := by
  obtain ⟨hpos, horder⟩ := inOrder_tokensAround stage
  refine List.Nodup.of_map TaggedToken.token (List.Pairwise.imp_of_mem ?_ horder)
  rintro s t hs - hle rfl
  exact absurd (hpos s hs) (Nat.not_lt.mpr hle)

/-- The words of a command are the tokens behind its name that belong to no redirection, in the
order of the stage. -/
theorem Invocation.words_eq_filter {stage : Text} {inv : Invocation}
    (hinv : ofTagged? stage (tagStage stage) = some inv) :
    inv.words = (tokensBehind stage).filter
      (· ∉ (placedRedirects stage).flatMap PlacedRedirect.tokens) := by
  set front := (tagStage stage).takeWhile (·.role != .command) with hfront
  have haround : tokensAround stage = front ++ tokensBehind stage :=
    eraseP_eq_append (·.role == .command) (tagStage stage)
  have hwords : inv.words =
      (sortTokens true (leavesPending false front) (tokensBehind stage)).words := by
    unfold tokensBehind
    rw [ofTagged?, ← hfront] at hinv
    split at hinv
    · cases hinv
    next command rest hrest =>
      obtain rfl := Option.some.inj hinv
      rw [hrest]
      rfl
  have hnodup : (front ++ tokensBehind stage).Nodup := haround ▸ nodup_tokensAround stage
  have hapart := (List.nodup_append.mp hnodup).2.2
  have hall := words_sortTokens_eq_filter none (front ++ tokensBehind stage) hnodup
  rw [Option.isSome_none, (sortTokens_append false front _).1, List.filter_append, ← hwords] at hall
  -- Of both sides, only what stands behind the command word is kept.
  have hnone (us : List TaggedToken) (hus : us ⊆ front) :
      us.filter (· ∈ tokensBehind stage) = [] := by
    refine List.filter_eq_nil_iff.mpr fun u hu hmem => ?_
    exact hapart u (hus hu) u (by simpa using hmem) rfl
  have hkept (us : List TaggedToken) (hus : us ⊆ tokensBehind stage) :
      us.filter (· ∈ tokensBehind stage) = us :=
    List.filter_eq_self.mpr fun u hu => decide_eq_true (hus hu)
  have hbehind := congrArg (List.filter (· ∈ tokensBehind stage)) hall
  rw [List.filter_append, List.filter_append, hnone _ fun _ => mem_of_mem_words,
    hnone _ (List.filter_sublist.subset), List.nil_append, List.nil_append,
    hkept _ (List.filter_sublist.subset), hkept _ (hwords ▸ fun _ => mem_of_mem_words)] at hbehind
  rw [hbehind, placedRedirects, haround]
  rfl

theorem Invocation.words_subset {stage : Text} {inv : Invocation}
    (hinv : ofTagged? stage (tagStage stage) = some inv) : inv.words ⊆ tagStage stage := by
  intro t ht
  rw [words_eq_filter hinv] at ht
  have hbehind := (List.mem_filter.mp ht).1
  exact (List.dropWhile_suffix _).subset (List.mem_of_mem_tail hbehind)

/-- No word of a command is another one. -/
theorem Invocation.words_nodup {stage : Text} {inv : Invocation}
    (hinv : ofTagged? stage (tagStage stage) = some inv) : inv.words.Nodup := by
  have haround : tokensAround stage =
      (tagStage stage).takeWhile (·.role != .command) ++ tokensBehind stage :=
    eraseP_eq_append (·.role == .command) (tagStage stage)
  have hnodup := haround ▸ nodup_tokensAround stage
  rw [words_eq_filter hinv]
  exact (List.nodup_append.mp hnodup).2.1.sublist List.filter_sublist

/-! ## What becomes of a word -/

/-- A text in one pair of quotes that nothing inside needs. -/
def Text.QuotesPlain (text inside : Text) : Prop :=
  ∃ q ∈ ['\'', '"'], text = q :: (inside ++ [q]) ∧ inside ≠ [] ∧ ∀ c ∈ inside, isPlain c = true

/-- What takes the place of a word: a flag becomes what the mapping says, and is dropped if that is
nothing; of any other word, only quotes that it does not need are taken off. -/
inductive Mapping.Becomes (m : Mapping) (t : TaggedToken) : List Text → Prop
  | dropped (hflag : t.role = .flag) (hget : m.flags.get? t.value = some []) : m.Becomes t []
  | flag {text : Text} (hflag : t.role = .flag) (hget : m.flags.get? t.value = some text)
      (hne : text ≠ []) : m.Becomes t [text]
  | unquoted {inside : Text} (hflag : t.role ≠ .flag) (hquotes : Text.QuotesPlain t.value inside) :
      m.Becomes t [inside]
  | same (hflag : t.role ≠ .flag) (hplain : ∀ inside, ¬Text.QuotesPlain t.value inside) :
      m.Becomes t [t.value]

theorem Text.withoutQuotes_of_quotesPlain {t inside : Text} (h : QuotesPlain t inside) :
    withoutQuotes t = inside := by
  obtain ⟨q, hq, rfl, hne, hplain⟩ := h
  have hinner : inner (q :: (inside ++ [q])) = inside := by simp [inner]
  have henclosed : enclosedBy q (q :: (inside ++ [q])) = true := by
    rw [enclosedBy_iff, hinner]
  have hquote : enclosedBy '\'' (q :: (inside ++ [q])) ||
      enclosedBy '"' (q :: (inside ++ [q])) := by
    simp only [List.mem_cons, List.not_mem_nil, or_false] at hq
    rcases hq with rfl | rfl <;> simp [henclosed]
  unfold withoutQuotes
  rw [if_pos hquote, hinner, if_pos (by simpa [hne] using hplain)]

theorem Text.withoutQuotes_of_not_quotesPlain {t : Text} (h : ∀ inside, ¬QuotesPlain t inside) :
    withoutQuotes t = t := by
  unfold withoutQuotes
  split
  next henclosed =>
    refine if_neg fun hplain => h (inner t) ?_
    simp only [Bool.and_eq_true, Bool.not_eq_true', List.isEmpty_eq_false_iff,
      List.all_eq_true] at hplain
    rcases Bool.or_eq_true_iff.mp henclosed with hq | hq
    · exact ⟨'\'', by simp, enclosedBy_iff.mp hq, hplain⟩
    · exact ⟨'"', by simp, enclosedBy_iff.mp hq, hplain⟩
  next => rfl

/-- A text as a word, or as none if it is empty. -/
def wordsOf (text : Text) : List Text := [text].filter (!·.isEmpty)

theorem wordsOf_of_ne_nil {text : Text} (h : text ≠ []) : wordsOf text = [text] := by
  simp [wordsOf, h]

namespace Mapping

variable {m : Mapping} {inv : Invocation}

theorem becomes_of_image? {t : TaggedToken} {text : Text} (h : m.image? t = some text)
    (hne : t.value ≠ []) : m.Becomes t (wordsOf text) := by
  unfold image? TaggedToken.isFlag at h
  by_cases hflag : t.role = .flag
  · rw [if_pos (by simpa using hflag)] at h
    by_cases hempty : text = []
    · subst hempty
      exact .dropped hflag h
    · rw [wordsOf_of_ne_nil hempty]
      exact .flag hflag h hempty
  · rw [if_neg (by simpa using hflag)] at h
    obtain rfl := Option.some.inj h
    by_cases hplain : ∃ inside, Text.QuotesPlain t.value inside
    · obtain ⟨inside, hinside⟩ := hplain
      have hkept : inside ≠ [] := hinside.elim fun _ hq => hq.2.2.1
      rw [Text.withoutQuotes_of_quotesPlain hinside, wordsOf_of_ne_nil hkept]
      exact .unquoted hflag hinside
    · rw [not_exists] at hplain
      rw [Text.withoutQuotes_of_not_quotesPlain hplain, wordsOf_of_ne_nil hne]
      exact .same hflag hplain

/-- Converted words, one by one. -/
theorem forall₂_becomes {ws : List TaggedToken} {images : List Text}
    (h : ws.mapM m.image? = some images) (hne : ∀ w ∈ ws, w.value ≠ []) :
    List.Forall₂ m.Becomes ws (images.map wordsOf) := by
  induction ws generalizing images with
  | nil =>
    obtain rfl : [] = images := Option.some.inj h
    exact .nil
  | cons w ws ih =>
    rw [List.mapM_cons] at h
    obtain ⟨text, htext, h⟩ := Option.bind_eq_some_iff.mp h
    obtain ⟨rest, hrest, h⟩ := Option.bind_eq_some_iff.mp h
    obtain rfl := Option.some.inj h
    exact .cons (becomes_of_image? htext (hne w List.mem_cons_self))
      (ih hrest fun u hu => hne u (List.mem_cons_of_mem _ hu))

/-! ## When there is a converted command -/

/-- The mapping knows every flag, and there is an argument if it needs one. -/
def Accepts (m : Mapping) (inv : Invocation) : Prop :=
  (∀ w ∈ inv.words, w.role = .flag → w.value ∈ m.flags.keys) ∧
    (m.needsArguments = true → ∃ w ∈ inv.words, w.role ≠ .flag)

instance : Decidable (m.Accepts inv) := inferInstanceAs (Decidable (_ ∧ _))

theorem isSome_get?_iff {table : FlagTable} {flag : Text} :
    (table.get? flag).isSome = true ↔ flag ∈ table.keys := by
  simp [FlagTable.get?, FlagTable.keys, List.lookup_isSome_iff]

theorem isSome_image?_iff {t : TaggedToken} :
    (m.image? t).isSome = true ↔ (t.role = .flag → t.value ∈ m.flags.keys) := by
  unfold image? TaggedToken.isFlag
  by_cases hflag : t.role = .flag
  · rw [if_pos (by simpa using hflag), isSome_get?_iff]
    simp [hflag]
  · rw [if_neg (by simpa using hflag)]
    simp [hflag]

theorem isSome_mapM_image?_iff {ws : List TaggedToken} : (ws.mapM m.image?).isSome = true ↔
    ∀ w ∈ ws, w.role = .flag → w.value ∈ m.flags.keys := by
  induction ws with
  | nil => simp
  | cons w ws ih =>
    rw [List.forall_mem_cons, ← ih, ← isSome_image?_iff, List.mapM_cons]
    cases m.image? w <;> cases ws.mapM m.image? <;> simp

theorem counterpart?_isSome_iff : (m.counterpart? inv).isSome = true ↔ m.Accepts inv := by
  have harguments : inv.arguments.isEmpty = false ↔ ∃ w ∈ inv.words, w.role ≠ .flag := by
    simp [Invocation.arguments, TaggedToken.isFlag]
  rw [Accepts, ← isSome_mapM_image?_iff, ← harguments, counterpart?]
  cases inv.words.mapM m.image? <;> cases m.needsArguments <;> cases inv.arguments.isEmpty <;> simp

end Mapping

/-! ## Words put one behind the other -/

/-- Words one space apart, where `$` is glued to a group behind it. -/
def spaced : Text → List Text → Text
  | word, [] => word
  | word, next :: words => word ++ (seam word next ++ spaced next words)

theorem head?_spaced {word : Text} (h : word ≠ []) (words : List Text) :
    (spaced word words).head? = word.head? := by
  cases words with
  | nil => rfl
  | cons next words => rw [spaced, List.head?_append_of_ne_nil _ h]

theorem spaced_ne_nil {word : Text} (h : word ≠ []) (words : List Text) :
    spaced word words ≠ [] := by
  cases words <;> simp [spaced, h]

/-- Joining skips empty words and puts the others one behind the other. -/
theorem joinWords_eq_spaced {word : Text} (h : word ≠ []) (images : List Text) :
    joinWords (word :: images) = spaced word (images.flatMap wordsOf) := by
  induction images generalizing word with
  | nil => exact nil_appendWord word
  | cons image images ih =>
    by_cases himage : image = []
    · have hskip : joinWords (word :: image :: images) = joinWords (word :: images) := by
        rw [joinWords_cons, joinWords_cons, joinWords_cons, himage, nil_appendWord]
      rw [hskip, ih h, himage]
      rfl
    · have hseam : seam word (spaced image (images.flatMap wordsOf)) = seam word image := by
        rw [seam, head?_spaced himage, ← seam]
      rw [joinWords_cons, ih himage, appendWord_eq h (spaced_ne_nil himage _), hseam,
        List.flatMap_cons, wordsOf_of_ne_nil himage]
      rfl

/-! ## Stages of commands that have a mapping -/

/-- A command that has a mapping has no rule of its own, and something takes its place. -/
theorem RuleTable.of_get?_withOverlay {overlay : List Mapping} {name : Text} {m : Mapping}
    (h : (withOverlay overlay).get? name = some m) :
    Special.ofName? name = none ∧ m.verb ≠ [] := by
  rw [get?_withOverlay] at h
  have hadmissible := (List.mem_filter.mp (List.mem_of_find?_eq_some h)).2
  obtain ⟨hproblem, hspecial⟩ := Mapping.isAdmissible_iff.mp hadmissible
  have hname : m.name = name := by simpa using List.find?_some h
  refine ⟨hname ▸ hspecial, ?_⟩
  intro hverb
  have hblank : (Text.trim m.verb).isEmpty = true := by
    rw [hverb]
    rfl
  rw [Mapping.problem?, hblank] at hproblem
  split at hproblem
  · cases hproblem
  · split at hproblem <;> cases hproblem

/-- No token of a stage is empty. -/
theorem value_ne_nil_of_mem_tagStage {stage : Text} {t : TaggedToken} (h : t ∈ tagStage stage) :
    t.value ≠ [] := by
  have hstage : (tagStage stage).map TaggedToken.token = fuse stage (tokenize stage) :=
    map_token_tagRolesFrom true _
  have hmem : t.token ∈ fuse stage (tokenize stage) := hstage ▸ List.mem_map_of_mem h
  exact (sliced_fuseWith stage Fusion.all).value_ne_nil hmem

namespace StageConverter

variable {overlay : List Mapping} {target : Target} {stage : Text} {inv : Invocation} {m : Mapping}

/-- The stage of a command that has a mapping becomes what the mapping makes of the command. -/
theorem convertStage?_of_get? (htarget : target.needsConversion = true)
    (hgroup : isGrouped stage = false) (hheredoc : ∀ t ∈ tagStage stage, t.token.isHeredoc = false)
    (hinv : Invocation.ofTagged? stage (tagStage stage) = some inv)
    (hm : (RuleTable.withOverlay overlay).get? inv.name = some m) (nested : Nested) :
    convertStage? ⟨.withOverlay overlay, target⟩ nested stage = m.counterpart? inv := by
  rw [convertStage?_of_ofTagged? htarget hgroup hheredoc hinv]
  unfold convertInvocation?
  simp only [(RuleTable.of_get?_withOverlay hm).1, hm, Option.bind_some]

end StageConverter

/-- The counterpart by a mapping: what takes the place of the command, then what takes the place of
each word. -/
theorem Mapping.counterpart?_of_accepts {m : Mapping} {inv : Invocation} (hverb : m.verb ≠ [])
    (hwords : ∀ w ∈ inv.words, w.value ≠ []) (h : m.Accepts inv) :
    ∃ pieces, List.Forall₂ m.Becomes inv.words pieces ∧
      m.counterpart? inv = some (inv.finish (spaced m.verb pieces.flatten)) := by
  obtain ⟨text, htext⟩ := Option.isSome_iff_exists.mp (counterpart?_isSome_iff.mpr h)
  unfold counterpart? at htext ⊢
  cases himages : inv.words.mapM m.image? with
  | none => simp [himages] at htext
  | some images =>
    refine ⟨images.map wordsOf, forall₂_becomes himages hwords, ?_⟩
    simp only [himages] at htext ⊢
    split at htext
    · cases htext
    next hargument => rw [if_neg hargument, joinWords_eq_spaced hverb, ← List.flatMap_def]

/-- **A command that has a mapping is converted as a whole or not at all**, with any mappings of a
user. It is converted exactly if the mapping knows all its flags and it has an argument where the
mapping needs one; otherwise the stage stays as it is. What takes the place of its words stands
behind what takes the place of its name, in the order of the words, and these are all tokens behind
the name that belong to no redirection. -/
theorem mapped_stage_all_or_nothing (overlay : List Mapping) (target : Target) (stage : Text)
    (inv : Invocation) (m : Mapping) (htarget : target.needsConversion = true)
    (hgroup : isGrouped stage = false) (hheredoc : ∀ t ∈ tagStage stage, t.token.isHeredoc = false)
    (hinv : Invocation.ofTagged? stage (tagStage stage) = some inv)
    (hm : (RuleTable.withOverlay overlay).get? inv.name = some m) :
    let r : StageConverter := ⟨.withOverlay overlay, target⟩
    (∀ nested, (r.convertStage? nested stage).isSome = true ↔ m.Accepts inv) ∧
      (m.Accepts inv → ∃ pieces, List.Forall₂ m.Becomes inv.words pieces ∧
        ∀ depth, r.convertStageAt depth stage = inv.finish (spaced m.verb pieces.flatten)) ∧
      (¬m.Accepts inv → ∀ depth, r.convertStageAt depth stage = stage) ∧
      inv.words = (tokensBehind stage).filter
        (· ∉ (placedRedirects stage).flatMap PlacedRedirect.tokens) := by
  intro r
  have hconvert := StageConverter.convertStage?_of_get? htarget hgroup hheredoc hinv hm
  refine ⟨fun nested => ?_, fun haccepts => ?_, fun hnot depth => ?_,
    Invocation.words_eq_filter hinv⟩
  · rw [hconvert, Mapping.counterpart?_isSome_iff]
  · have hwords : ∀ w ∈ inv.words, w.value ≠ [] := by
      intro w hw
      rw [Invocation.words_eq_filter hinv] at hw
      have hbehind := (List.mem_filter.mp hw).1
      exact value_ne_nil_of_mem_tagStage
        ((List.dropWhile_suffix _).subset (List.mem_of_mem_tail hbehind))
    obtain ⟨pieces, hpieces, htext⟩ := Mapping.counterpart?_of_accepts
      (RuleTable.of_get?_withOverlay hm).2 hwords haccepts
    refine ⟨pieces, hpieces, fun depth => ?_⟩
    rw [StageConverter.convertStageAt_eq, hconvert, htext]
    rfl
  · have hnone : m.counterpart? inv = none := by
      rw [← Option.not_isSome_iff_eq_none, Mapping.counterpart?_isSome_iff]
      exact hnot
    rw [StageConverter.convertStageAt_eq, hconvert, hnone]
    rfl

/-- A mapping of a user, with one flag that is dropped and one that is not. -/
def tidyOverlay : List Mapping :=
  [⟨"tidy".toList, "Clear-Tidy".toList, [], [("-k".toList, "-Keep".toList), ("-n".toList, [])],
    true⟩]

/-- Redirections on both sides, quotes that are needed and quotes that are not, and a flag that is
the target of a redirection. -/
def tidyStage : Text := "2>err tidy -n 'a b' \"c\" $ (x) -k >-n".toList

/-- Whether the command of a stage has a mapping that satisfies `test`. -/
def mappedAs (overlay : List Mapping) (test : Mapping → Invocation → Bool) (stage : Text) : Bool :=
  (Invocation.ofTagged? stage (tagStage stage)).any fun inv =>
    ((RuleTable.withOverlay overlay).get? inv.name).any fun m => test m inv

theorem exists_of_mappedAs {overlay : List Mapping} {test : Mapping → Invocation → Bool}
    {stage : Text} (h : mappedAs overlay test stage = true) :
    ∃ inv m, Invocation.ofTagged? stage (tagStage stage) = some inv ∧
      (RuleTable.withOverlay overlay).get? inv.name = some m ∧ test m inv = true := by
  obtain ⟨inv, hinv, h⟩ := (Option.any_eq_true _ _).mp h
  obtain ⟨m, hm, h⟩ := (Option.any_eq_true _ _).mp h
  exact ⟨inv, m, hinv, hm, h⟩

/-- With a flag that is not known, the stage stays as it is. -/
theorem mapped_stage_all_or_nothing_tidyStage :
    let r : StageConverter := ⟨.withOverlay tidyOverlay, .powerShell (some 7)⟩
    (∃ inv m pieces, Invocation.ofTagged? tidyStage (tagStage tidyStage) = some inv ∧
      Mapping.Accepts m inv ∧ List.Forall₂ m.Becomes inv.words pieces ∧
      r.convertStageAt maxDepth tidyStage = inv.finish (spaced m.verb pieces.flatten)) ∧
      r.convertStageAt maxDepth tidyStage =
        "Clear-Tidy 'a b' c $( x ) -Keep 2>err > -n".toList ∧
      r.convertStageAt maxDepth "tidy -n -q x".toList = "tidy -n -q x".toList := by
  intro r
  obtain ⟨inv, m, hinv, hm, haccepts⟩ := exists_of_mappedAs
    (show mappedAs tidyOverlay (fun m inv => decide (m.Accepts inv)) tidyStage = true by
      decide +kernel)
  obtain ⟨inv', m', hinv', hm', hnot⟩ := exists_of_mappedAs
    (show mappedAs tidyOverlay (fun m inv => !decide (m.Accepts inv)) "tidy -n -q x".toList = true
      by decide +kernel)
  obtain ⟨-, hconverted, -, -⟩ := mapped_stage_all_or_nothing tidyOverlay (.powerShell (some 7))
    tidyStage inv m rfl (by decide +kernel) (by decide +kernel) hinv hm
  obtain ⟨-, -, hkept, -⟩ := mapped_stage_all_or_nothing tidyOverlay (.powerShell (some 7))
    "tidy -n -q x".toList inv' m' rfl (by decide +kernel) (by decide +kernel) hinv' hm'
  obtain ⟨pieces, hpieces, htext⟩ := hconverted (of_decide_eq_true haccepts)
  exact ⟨⟨inv, m, pieces, hinv, of_decide_eq_true haccepts, hpieces, htext maxDepth⟩,
    by decide +kernel, hkept (by simpa using hnot) maxDepth⟩

end CrossShell
