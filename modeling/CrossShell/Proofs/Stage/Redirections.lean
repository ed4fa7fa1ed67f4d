import CrossShell.Stage
import CrossShell.Proofs.Stage.Sorting

/-!
# Redirections kept apart from words

* `StageText.Regular`: the stages whose redirections are all recognised.
* `StageText.KeepsApart`: no part of a redirection is taken for the command or for a word.
* `StageText.keepsApart_iff`: the regular stages are those that keep them apart, and are sorted as
  they were written. A command that needs arguments is then not converted for the sake of a target.
-/

namespace CrossShell

namespace StageText

variable (s : StageText)

/-- The redirections before the command word are contained, and those behind it regular. -/
def Regular : Prop := (∀ p ∈ s.front, p.1.contained = true) ∧ ∀ p ∈ s.behind, p.1.regular = true

instance : Decidable s.Regular := inferInstanceAs (Decidable (_ ∧ _))

/-- The stage has an invocation, and neither its command word nor any of its words starts inside of
a redirection. -/
def KeepsApart : Prop :=
  ∃ command inv, (tagStage s.text).find? (·.role == .command) = some command ∧
    Invocation.ofTagged? s.text (tagStage s.text) = some inv ∧ inv.name = command.value ∧
    ¬s.Covers command.token ∧ ∀ t ∈ inv.words, ¬s.Covers t.token

theorem tagStage_text : tagStage s.text = tagRolesFrom true (s.places.flatMap tokensAt) := by
  rw [← s.fused_text]
  rfl

theorem redirect_of_mem_front {s : StageText} {p : Nat × StageItem}
    (h : p ∈ placed (Text.size s.lead) s.frontItems) : ∃ q ∈ s.front, p.2 = .redirect q.1 := by
  obtain ⟨gap, hmem⟩ := mem_items_of_mem_placed h
  obtain ⟨q, hq, heq⟩ := List.mem_map.mp hmem
  exact ⟨q, hq, (congrArg Prod.fst heq).symm⟩

/-- With contained redirections in front, the first token of the command word is the command. -/
theorem exists_tagStage_eq {s : StageText} (h : ∀ p ∈ s.front, p.1.contained = true) :
    ∃ F c cs, tokensAt (s.commandPlace, .word s.command) = c :: cs ∧
      tagStage s.text =
        F ++ ⟨c, .command⟩ ::
          (cs.map tagBehind ++ (s.behindPlaces.flatMap tokensAt).map tagBehind) ∧
      F.map TaggedToken.value =
        (redirectTokens (placed (Text.size s.lead) s.frontItems)).map Token.value ∧
      ∀ t ∈ F, t.role = .argument ∧ t.token.isRedirect = true ∧
        Invocation.needsTarget t.value = false := by
  have hne : tokensAt (s.commandPlace, .word s.command) ≠ [] := by
    simpa [tokensAt, StageItem.text] using s.command.fused_ne_nil
  obtain ⟨c, cs, htokens⟩ := List.exists_cons_of_ne_nil hne
  have hfront : ∀ p ∈ placed (Text.size s.lead) s.frontItems, ∃ r, p.2 = .redirect r ∧
      r.contained = true := by
    intro p hp
    obtain ⟨q, hq, heq⟩ := redirect_of_mem_front hp
    exact ⟨q.1, heq, h q hq⟩
  obtain ⟨F, htags, hvalues, hF⟩ := exists_tagRolesFrom_eq hfront
    ((c :: cs) ++ s.behindPlaces.flatMap tokensAt)
  refine ⟨F, c, cs, htokens, ?_, hvalues, hF⟩
  have hword : ∀ t ∈ c :: cs, t.isRedirect = false ∧ t.isConnector = false := by
    rw [← htokens]
    exact fun t ht => ⟨isRedirect_of_mem_tokensAt t ht, isConnector_of_mem_tokensAt t ht⟩
  obtain ⟨hredirect, hconnector⟩ := hword c List.mem_cons_self
  have hrest : ∀ t ∈ cs ++ s.behindPlaces.flatMap tokensAt, t.isConnector = false := by
    intro t ht
    rcases List.mem_append.mp ht with ht | ht
    · exact (hword t (List.mem_cons_of_mem _ ht)).2
    · obtain ⟨p, -, ht⟩ := List.mem_flatMap.mp ht
      exact isConnector_of_mem_tokensAt t ht
  rw [s.tagStage_text, s.places_eq, List.flatMap_append, List.flatMap_cons, htokens, htags,
    List.cons_append, tagRolesFrom, role_of_not_isRedirect hconnector hredirect,
    tagRolesFrom_false hrest, List.map_append]

/-- The invocation of a stage whose redirections before the command word are contained. -/
theorem exists_ofTagged?_eq {s : StageText} (h : ∀ p ∈ s.front, p.1.contained = true) :
    ∃ c cs, tokensAt (s.commandPlace, .word s.command) = c :: cs ∧
      (tagStage s.text).find? (·.role == .command) = some ⟨c, .command⟩ ∧
      Invocation.ofTagged? s.text (tagStage s.text) =
        some ⟨c.value, s.text,
          cs.map tagBehind ++ (Invocation.sortTokens true false
            ((s.behindPlaces.flatMap tokensAt).map tagBehind)).words,
          (redirectTokens (placed (Text.size s.lead) s.frontItems)).map Token.value ++
            (Invocation.sortTokens true false
              ((s.behindPlaces.flatMap tokensAt).map tagBehind)).redirects⟩ := by
  obtain ⟨F, c, cs, htokens, htags, hvalues, hF⟩ := exists_tagStage_eq h
  have hcs : ∀ t ∈ cs, t.isRedirect = false := by
    intro t ht
    have hmem : t ∈ tokensAt (s.commandPlace, .word s.command) := by
      rw [htokens]
      exact List.mem_cons_of_mem _ ht
    exact isRedirect_of_mem_tokensAt t hmem
  refine ⟨c, cs, htokens, ?_, ?_⟩
  · rw [htags, find?_command_append fun t ht => (hF t ht).1]
    rfl
  · rw [htags, Invocation.ofTagged?_append s.text hF rfl, Invocation.sortTokens_words hcs, hvalues]
    rfl

/-- Words are not inside of redirections. -/
theorem not_covers_of_mem_wordTokens {t : Token} (h : t ∈ wordTokens s.places) : ¬s.Covers t := by
  obtain ⟨⟨pos, i⟩, hp, ht⟩ := List.mem_flatMap.mp h
  cases i with
  | redirect r => cases ht
  | word w =>
    obtain ⟨u, hu, rfl⟩ := List.mem_map.mp ht
    exact s.not_covers_of_mem hp hu

theorem regular_of_mem_behind {s : StageText} (h : ∀ p ∈ s.behind, p.1.regular = true) :
    ∀ p ∈ s.behindPlaces, p.2.regular = true := by
  intro p hp
  obtain ⟨gap, hmem⟩ := mem_items_of_mem_placed hp
  exact h _ hmem

theorem wordTokens_places : wordTokens s.places =
    tokensAt (s.commandPlace, .word s.command) ++ wordTokens s.behindPlaces := by
  have hfront : wordTokens (placed (Text.size s.lead) s.frontItems) = [] := by
    refine List.flatMap_eq_nil_iff.mpr fun p hp => ?_
    obtain ⟨q, -, heq⟩ := redirect_of_mem_front hp
    rw [heq]
  rw [places_eq, wordTokens, List.flatMap_append, ← wordTokens, hfront, List.nil_append,
    List.flatMap_cons]
  rfl

theorem redirectTokens_places : redirectTokens s.places =
    redirectTokens (placed (Text.size s.lead) s.frontItems) ++ redirectTokens s.behindPlaces := by
  rw [places_eq, redirectTokens, List.flatMap_append, List.flatMap_cons]
  rfl

/-- The words and redirections of a regular stage are sorted as they were written. -/
theorem exists_invocation_of_regular {s : StageText} (h : s.Regular) :
    ∃ c ws, wordTokens s.places = c :: ws ∧
      (tagStage s.text).find? (·.role == .command) = some ⟨c, .command⟩ ∧
      Invocation.ofTagged? s.text (tagStage s.text) =
        some ⟨c.value, s.text, ws.map tagBehind, (redirectTokens s.places).map Token.value⟩ := by
  obtain ⟨c, cs, htokens, hfind, hinv⟩ := exists_ofTagged?_eq h.1
  have hsort := sortTokens_of_regular (regular_of_mem_behind h.2) []
  rw [List.append_nil] at hsort
  refine ⟨c, cs ++ wordTokens s.behindPlaces, ?_, hfind, ?_⟩
  · rw [wordTokens_places, htokens]
    rfl
  · rw [hinv, hsort, redirectTokens_places]
    simp [Invocation.sortTokens]

/-- A regular stage keeps words and redirections apart. -/
theorem keepsApart_of_regular {s : StageText} (h : s.Regular) : s.KeepsApart := by
  obtain ⟨c, ws, hwords, hfind, hinv⟩ := exists_invocation_of_regular h
  refine ⟨⟨c, .command⟩, _, hfind, hinv, rfl, ?_, ?_⟩
  · refine s.not_covers_of_mem_wordTokens ?_
    rw [hwords]
    exact List.mem_cons_self
  · intro t ht
    obtain ⟨u, hu, rfl⟩ := List.mem_map.mp ht
    refine s.not_covers_of_mem_wordTokens ?_
    rw [hwords]
    exact List.mem_cons_of_mem _ hu

/-- A stage that keeps them apart is regular: the first redirection that is not goes to the command
or to the words. -/
theorem regular_of_keepsApart {s : StageText} (h : s.KeepsApart) : s.Regular := by
  obtain ⟨command, inv, hfind, hinv, -, hcommand, hwords⟩ := h
  have hfront : ∀ p ∈ s.front, p.1.contained = true := by
    by_contra hnot
    have hsome : ∃ p ∈ placed (Text.size s.lead) s.frontItems, ∃ r, p.2 = .redirect r ∧
        r.contained = false := by
      simp only [not_forall, Bool.not_eq_true] at hnot
      obtain ⟨q, hq, hcontained⟩ := hnot
      have hitem : (StageItem.redirect q.1, q.2) ∈ s.frontItems := List.mem_map.mpr ⟨q, hq, rfl⟩
      obtain ⟨pos, hp⟩ := exists_mem_placed (Text.size s.lead) hitem
      exact ⟨_, hp, q.1, rfl, hcontained⟩
    obtain ⟨pos, r, t, hr, ht, hfound⟩ := exists_command_of_not_contained
      (fun p hp => by
        obtain ⟨q, -, heq⟩ := redirect_of_mem_front hp
        exact ⟨q.1, heq⟩) hsome
      (tokensAt (s.commandPlace, .word s.command) ++ s.behindPlaces.flatMap tokensAt)
    rw [← List.flatMap_cons, ← List.flatMap_append, ← s.places_eq, ← s.tagStage_text,
      hfind] at hfound
    obtain rfl := Option.some.inj hfound
    refine hcommand (s.covers_of_mem ?_ ht)
    rw [places_eq]
    exact List.mem_append_left _ hr
  refine ⟨hfront, ?_⟩
  by_contra hnot
  have hsome : ∃ p ∈ s.behindPlaces, p.2.regular = false := by
    simp only [not_forall, Bool.not_eq_true] at hnot
    obtain ⟨q, hq, hregular⟩ := hnot
    obtain ⟨pos, hp⟩ := exists_mem_placed
      (s.commandPlace + (Text.size s.command.text + Text.size s.gap)) hq
    exact ⟨_, hp, hregular⟩
  obtain ⟨pos, r, t, hr, ht, hword⟩ := exists_word_of_irregular hsome
  obtain ⟨c, cs, -, -, hinv'⟩ := exists_ofTagged?_eq hfront
  obtain rfl := Option.some.inj (hinv.symm.trans hinv')
  refine hwords _ (List.mem_append_right _ hword) (s.covers_of_mem ?_ ht)
  rw [places_eq]
  exact List.mem_append_right _ (List.mem_cons_of_mem _ hr)

/-- A word that looks like a flag is one, behind the command word. -/
theorem isFlag_tagBehind {t : Token} (hr : t.isRedirect = false) (hc : t.isConnector = false)
    (hf : t.isFlagShaped = true) : (tagBehind t).isFlag = true := by
  simp [tagBehind, TaggedToken.isFlag, Token.role, hr, hc, hf]

theorem inert_of_mem_wordTokens {t : Token} (h : t ∈ wordTokens s.places) :
    t.isRedirect = false ∧ t.isConnector = false := by
  obtain ⟨⟨pos, i⟩, -, ht⟩ := List.mem_flatMap.mp h
  cases i with
  | redirect r => cases ht
  | word w => exact ⟨isRedirect_of_mem_tokensAt t ht, isConnector_of_mem_tokensAt t ht⟩

/-- A mapping that needs arguments does not apply to flags alone. -/
theorem counterpart?_of_flags {m : Mapping} (hm : m.needsArguments = true) {inv : Invocation}
    (h : ∀ t ∈ inv.words, t.isFlag = true) : m.counterpart? inv = none := by
  have hnone : inv.arguments = [] := by
    rw [Invocation.arguments, List.map_eq_nil_iff, List.filter_eq_nil_iff]
    intro t ht
    rw [h t ht]
    decide
  unfold Mapping.counterpart?
  split
  · rfl
  · rw [hm, hnone]
    rfl

/-- In a regular stage, a command that needs arguments and has only flags stays as it is. -/
theorem convertStage_of_flags {s : StageText} (h : s.Regular) {c : Token} {ws : List Token}
    (hwords : wordTokens s.places = c :: ws) (hflags : ∀ t ∈ ws, t.isFlagShaped = true)
    (converter : StageConverter) {m : Mapping} (hs : Special.ofName? c.value = none)
    (hget : converter.rules.get? c.value = some m) (hm : m.needsArguments = true) :
    converter.convertStage s.text = s.text := by
  obtain ⟨c', ws', hwords', -, hinv⟩ := exists_invocation_of_regular h
  obtain ⟨rfl, rfl⟩ := List.cons.inj (hwords.symm.trans hwords')
  have hflag : ∀ t ∈ ws.map tagBehind, t.isFlag = true := by
    intro t ht
    obtain ⟨u, hu, rfl⟩ := List.mem_map.mp ht
    obtain ⟨hr, hc⟩ := s.inert_of_mem_wordTokens (hwords ▸ List.mem_cons_of_mem c hu)
    exact isFlag_tagBehind hr hc (hflags u hu)
  have hnone : converter.convertStage? (converter.nestedAt maxDepth) s.text = none := by
    unfold StageConverter.convertStage?
    split
    · rfl
    · simp only []
      split
      · rfl
      · rw [hinv, Option.bind_some, StageConverter.convertInvocation?, hs, hget, Option.bind_some]
        exact counterpart?_of_flags hm hflag
  rw [StageConverter.convertStage, StageConverter.convertStageAt_eq, hnone]
  rfl

/-- **Redirections stay apart from words** exactly in the regular stages: before the command word
each redirection is one token, and an `&` has its number or `-` directly behind it. The words of
such a stage are those that were written, in order, and so are its redirections. A command that
needs arguments and has only flags besides its redirections stays as it is. -/
theorem keepsApart_iff (s : StageText) :
    (s.KeepsApart ↔ s.Regular) ∧
      (s.Regular → ∃ c ws, wordTokens s.places = c :: ws ∧
        Invocation.ofTagged? s.text (tagStage s.text) =
          some ⟨c.value, s.text, ws.map tagBehind, (redirectTokens s.places).map Token.value⟩ ∧
        ∀ (converter : StageConverter) (m : Mapping), Special.ofName? c.value = none →
          converter.rules.get? c.value = some m → m.needsArguments = true →
          (∀ t ∈ ws, t.isFlagShaped = true) → converter.convertStage s.text = s.text) := by
  refine ⟨⟨regular_of_keepsApart, keepsApart_of_regular⟩, fun h => ?_⟩
  obtain ⟨c, ws, hwords, -, hinv⟩ := exists_invocation_of_regular h
  refine ⟨c, ws, hwords, hinv, ?_⟩
  intro converter m hs hget hm hflags
  exact convertStage_of_flags h hwords hflags converter hs hget hm

end StageText

/-- Words in front, behind and between redirections, one of which touches another. -/
def cleanupStage : StageText where
  lead := [' ']
  front := [(⟨some (.number ['2'] (by decide) (by decide)), .write, false, [], "/dev/null".toList,
    by decide, by decide, by decide⟩, [' '])]
  command :=
    ⟨['r', 'm'], by decide +kernel, by decide +kernel, by decide +kernel, by decide +kernel⟩
  gap := [' ']
  behind := [
    (.word ⟨['-', 'f'], by decide +kernel, by decide +kernel, by decide +kernel, by decide +kernel⟩,
      [' ']),
    (.redirect ⟨none, .write, false, [], ['l', 'o', 'g'], by decide, by decide, by decide⟩, []),
    (.redirect ⟨none, .read, false, [' '], ['i', 'n'], by decide, by decide, by decide⟩, [' ']),
    (.redirect ⟨some (.number ['2'] (by decide) (by decide)), .write, true, [], ['1'],
      by decide, by decide, by decide⟩, [])]
  isGap_of_mem_lead := by decide
  spaced := ⟨by decide, nofun, by decide, nofun, by decide, nofun, by decide,
    fun _ => ⟨rfl, by decide +kernel, by decide +kernel⟩, by decide, nofun, by decide,
    fun _ => trivial, trivial⟩

theorem keepsApart_cleanup :
    cleanupStage.text = " 2>/dev/null rm -f >log< in 2>&1".toList ∧ cleanupStage.Regular ∧
      cleanupStage.KeepsApart ∧
      (StageConverter.mk .builtin (.powerShell (some 7))).convertStage cleanupStage.text =
        cleanupStage.text := by
  have hregular : cleanupStage.Regular := by decide +kernel
  have htokens : wordTokens cleanupStage.places = [bare ['r', 'm'] 13, bare ['-', 'f'] 16] := by
    decide +kernel
  let converter := StageConverter.mk .builtin (.powerShell (some 7))
  have hrule : (converter.rules.get? (bare ['r', 'm'] 13).value).any (·.needsArguments) = true := by
    decide +kernel
  obtain ⟨m, hget, hm⟩ := (Option.any_eq_true _ _).mp hrule
  obtain ⟨hiff, hsorted⟩ := cleanupStage.keepsApart_iff
  obtain ⟨c, ws, hwords, -, hconvert⟩ := hsorted hregular
  obtain ⟨rfl, rfl⟩ := List.cons.inj (htokens.symm.trans hwords)
  exact ⟨by decide +kernel, hregular, hiff.mpr hregular,
    hconvert converter m (by decide +kernel) hget hm (by decide +kernel)⟩

/-- A command without arguments whose output goes to a file, both streams at once. -/
def removeStage : StageText where
  lead := []
  front := []
  command :=
    ⟨['r', 'm'], by decide +kernel, by decide +kernel, by decide +kernel, by decide +kernel⟩
  gap := [' ']
  behind := [
    (.redirect ⟨none, .write, true, [' '], ['l', 'o', 'g'], by decide, by decide, by decide⟩, [])]
  isGap_of_mem_lead := nofun
  spaced := ⟨by decide, nofun, by decide, fun _ => trivial, trivial⟩

/-- In `rm >& log` the target is taken for an argument: the converted command removes the log. -/
theorem removeStage_takes_target :
    removeStage.text = "rm >& log".toList ∧ ¬removeStage.KeepsApart ∧
      Invocation.ofTagged? removeStage.text (tagStage removeStage.text) =
        some ⟨"rm", "rm >& log", [⟨bare "log" 6, .argument⟩], [">&"]⟩ ∧
      (StageConverter.mk .builtin (.powerShell (some 7))).convertStage removeStage.text =
        "Remove-Item log >&".toList := by
  have hirregular : ¬removeStage.Regular := by decide +kernel
  refine ⟨by decide +kernel, fun h => hirregular (StageText.regular_of_keepsApart h), ?_, ?_⟩ <;>
    decide +kernel

end CrossShell
