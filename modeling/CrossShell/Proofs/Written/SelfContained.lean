import CrossShell.Proofs.Written.Leads
import CrossShell.Proofs.Stage.Finish

/-!
# Commands put together from words that are self-contained

A converted command starts with fixed text and then takes words of the source in, with fixed text
in between. If the words can stand anywhere, so can the command.

* `SelfContained`: a word that has no connector and closes what it opens.
* `Begins`: the front of a command, `Begins.append` what is put behind it.
* `Invocation.SelfContained`: all words and redirections of an invocation are self-contained.
* `Begins.withInput`, `Invocation.SelfContained.begins_finish`: files and redirections around a
  command.
-/

namespace CrossShell

/-! ## Words -/

/-- Read from the start of a token, a word has no connector, closes no group but its own, and ends
outside of groups and quotes, where an operator that comes next is read as such. -/
def SelfContained (w : Text) : Prop :=
  ∃ s ∈ Scan.init.run? w, s.mode.level ≤ 2 ∧ s.nesting = .top

instance (w : Text) : Decidable (SelfContained w) :=
  inferInstanceAs (Decidable (∃ s ∈ _, _ ∧ _))

theorem SelfContained.leads {w : Text} (h : SelfContained w) : Leads .start w .firm := by
  obtain ⟨s, hrun, hlevel, hnesting⟩ := h
  exact leads_of_run hrun ⟨hlevel, hnesting⟩

/-! ## The front of a command -/

/-- A text that leads to a point from the start of a token, and that does not start with a blank. -/
structure Begins (t : Text) (p : Point) : Prop where
  leads : Leads .start t p
  opens : ∃ c u, t = c :: u ∧ Text.isBlank c = false

section Begins

variable {t u : Text} {p q : Point}

theorem Begins.append (h : Begins t p) (hu : Leads p u q) : Begins (t ++ u) q := by
  obtain ⟨c, v, rfl, hc⟩ := h.opens
  exact ⟨h.leads.append hu, c, v ++ u, rfl, hc⟩

theorem Begins.relax {l l' : Nat} {k : Nesting} (h : Begins t ⟨l, k⟩) (hl : l ≤ l') :
    Begins t ⟨l', k⟩ :=
  ⟨h.leads.relax hl, h.opens⟩

theorem Begins.firm (h : Begins t .settled) : Begins t .firm := h.relax (by decide)

/-- A literal text at the front of a command. -/
theorem begins_literal {s : String} {c : Char} (hs : s = String.ofList (c :: t))
    (h : (!Text.isBlank c && checks .start (c :: t) p) = true) : Begins s p := by
  rw [Bool.and_eq_true, Bool.not_eq_true'] at h
  refine ⟨leads_literal hs h.2, c, t, ?_, h.1⟩
  rw [hs, String.toList_ofList]

/-- A literal text behind the front of a command. -/
theorem Begins.literal (h : Begins t p) {s : String} (hs : s = String.ofList u)
    (hu : checks p u q = true) : Begins (t ++ s) q :=
  h.append (leads_literal hs hu)

/-- A block for each item, as a command of its own. -/
theorem begins_forEachItem (h : Leads .start t .resting) : Begins (forEachItem t) .firm :=
  ((begins_literal rfl (by decide)).append (leads_scriptBlock h)).firm

/-- A command and what stands behind it, with a separator in between. -/
theorem begins_join {sep : Text} (hsep : Leads .firm sep .start) (h : Begins t .firm)
    {us : List Text} (hus : ∀ u ∈ us, Leads .start u .firm) :
    Begins (Text.join sep (t :: us)) .firm := by
  refine ⟨leads_join rfl hsep (List.forall_mem_cons.mpr ⟨h.leads, hus⟩), ?_⟩
  obtain ⟨c, v, rfl, hc⟩ := h.opens
  cases us with
  | nil => exact ⟨c, v, rfl, hc⟩
  | cons u us => exact ⟨c, _, rfl, hc⟩

/-- Statements behind one another. -/
theorem begins_statements {ts : List Text} (hne : ts ≠ []) (h : ∀ u ∈ ts, Begins u .firm) :
    Begins (Text.join "; " ts) .firm := by
  obtain ⟨t, ts, rfl⟩ := List.exists_cons_of_ne_nil hne
  exact begins_join (leads_literal rfl (by decide)) (h t List.mem_cons_self)
    fun u hu => (h u (List.mem_cons_of_mem _ hu)).leads

end Begins

/-! ## Words behind one another -/

/-- What a partial map makes of a list comes from its members. -/
theorem exists_of_mem_mapM {α β : Type} {f : α → Option β} {as : List α} {bs : List β}
    (h : as.mapM f = some bs) : ∀ b ∈ bs, ∃ a ∈ as, f a = some b := by
  induction as generalizing bs with
  | nil =>
    cases h
    simp
  | cons a as ih =>
    rw [List.mapM_cons] at h
    obtain ⟨b, hb, h⟩ := Option.bind_eq_some_iff.mp h
    obtain ⟨bs', hbs, h⟩ := Option.bind_eq_some_iff.mp h
    cases h
    intro c hc
    rcases List.mem_cons.mp hc with rfl | hc
    · exact ⟨a, List.mem_cons_self, hb⟩
    · obtain ⟨a', ha', hf⟩ := ih hbs c hc
      exact ⟨a', List.mem_cons_of_mem _ ha', hf⟩

theorem mapM_ne_nil {α β : Type} {f : α → Option β} {as : List α} {bs : List β}
    (h : as.mapM f = some bs) (has : as ≠ []) : bs ≠ [] := by
  cases as with
  | nil => exact absurd rfl has
  | cons a as =>
    rw [List.mapM_cons] at h
    obtain ⟨b, -, h⟩ := Option.bind_eq_some_iff.mp h
    obtain ⟨bs', -, h⟩ := Option.bind_eq_some_iff.mp h
    cases h
    exact List.cons_ne_nil _ _

theorem Leads.firm {t : Text} {p : Point} (h : Leads .resting t p) : Leads .firm t p :=
  h.mono (by decide) rfl (Nat.le_refl _) rfl

theorem leads_comma : Leads .resting ", " .start := leads_literal rfl (by decide)

theorem leads_pipe : Leads .resting " | " .start := leads_literal rfl (by decide)

theorem begins_getContent : Begins "Get-Content " .start := begins_literal rfl (by decide)

section Words

variable {words : List Text} (hwords : ∀ w ∈ words, SelfContained w)
include hwords

/-- Words with commas in between are read like one word. -/
theorem leads_commaList_words : Leads .start (commaList words) .firm :=
  leads_join rfl leads_comma.firm fun w hw => (hwords w hw).leads

theorem leads_pathList : Leads .start (pathList words) .firm := by
  unfold pathList
  split
  · exact leads_literal rfl (by decide)
  · exact leads_commaList_words hwords

/-- The lines of files in front of a command. -/
theorem Begins.withInput {body : Text} (h : Begins body .firm) :
    Begins (withInput words body) .firm := by
  unfold CrossShell.withInput
  split
  · exact h
  · exact ((begins_getContent.append (leads_commaList_words hwords)).append leads_pipe.firm).append
      h.leads

end Words

theorem seam_eq (line word : Text) : seam line word = [' '] ∨
    seam line word = [] ∧ (word.head? = some '(' ∨ word.head? = some '{') := by
  unfold seam
  split <;> simp_all

/-- A word behind a line. Without a space in between it starts with a bracket, which is read the
same behind the `$`. -/
theorem leads_seam {line word : Text} {q : Point} (h : Leads .start word q) :
    Leads .firm (seam line word ++ word) q := by
  rcases seam_eq line word with hseam | ⟨hseam, hhead⟩
  · have hspace : Leads .firm [' '] .start := leads_of_checks (by decide)
    rw [hseam]
    exact hspace.append h
  · rw [hseam, List.nil_append]
    rcases hhead with hhead | hhead <;> obtain ⟨rest, rfl⟩ := List.head?_eq_some_iff.mp hhead
    · exact h.of_firm (by decide)
    · exact h.of_firm (by decide)

theorem leads_appendWord {line word : Text} (hline : Leads .start line .firm)
    (hword : Leads .start word .firm) : Leads .start (appendWord line word) .firm := by
  by_cases hw : word = []
  · simpa [hw] using hline
  by_cases hl : line = []
  · simpa [hl] using hword
  rw [appendWord_eq hl hw]
  exact hline.append (leads_seam hword)

theorem leads_joinWords {words : List Text} (h : ∀ w ∈ words, Leads .start w .firm) :
    Leads .start (joinWords words) .firm := by
  induction words with
  | nil => exact (leads_nil .start).mono (by decide) rfl (by decide) rfl
  | cons w words ih =>
    rw [joinWords_cons]
    exact leads_appendWord (h w List.mem_cons_self) (ih fun v hv => h v (List.mem_cons_of_mem _ hv))

theorem Begins.appendWord {line word : Text} (h : Begins line .firm)
    (hword : Leads .start word .firm) : Begins (appendWord line word) .firm := by
  refine ⟨leads_appendWord h.leads hword, ?_⟩
  by_cases hw : word = []
  · simpa [hw] using h.opens
  obtain ⟨c, u, rfl, hc⟩ := h.opens
  rw [appendWord_eq (List.cons_ne_nil c u) hw]
  exact ⟨c, _, rfl, hc⟩

/-! ## Invocations -/

namespace Invocation

/-- All words and redirections are self-contained. -/
structure SelfContained (inv : Invocation) : Prop where
  words : ∀ w ∈ inv.words, CrossShell.SelfContained w.value
  redirects : ∀ r ∈ inv.redirects, CrossShell.SelfContained r

instance (inv : Invocation) : Decidable inv.SelfContained :=
  decidable_of_iff ((∀ w ∈ inv.words, CrossShell.SelfContained w.value) ∧
      ∀ r ∈ inv.redirects, CrossShell.SelfContained r)
    ⟨fun h => ⟨h.1, h.2⟩, fun h => ⟨h.words, h.redirects⟩⟩

theorem exists_of_mem_positionalsIn {valued : List Text} {skip : Bool} {ws : List TaggedToken}
    {w : Text} (h : w ∈ positionalsIn valued skip ws) : ∃ t ∈ ws, t.value = w := by
  fun_induction positionalsIn valued skip ws with
  | case1 => cases h
  | case2 t ts ih =>
    obtain ⟨u, hu, hw⟩ := ih h
    exact ⟨u, List.mem_cons_of_mem _ hu, hw⟩
  | case3 t ts _ ih =>
    obtain ⟨u, hu, hw⟩ := ih h
    exact ⟨u, List.mem_cons_of_mem _ hu, hw⟩
  | case4 t ts _ ih =>
    rcases List.mem_cons.mp h with rfl | h
    · exact ⟨t, List.mem_cons_self, rfl⟩
    · obtain ⟨u, hu, hw⟩ := ih h
      exact ⟨u, List.mem_cons_of_mem _ hu, hw⟩

variable {inv : Invocation}

theorem SelfContained.positionals (h : inv.SelfContained) (valued : List Text) :
    ∀ w ∈ inv.positionals valued, CrossShell.SelfContained w := by
  intro w hw
  obtain ⟨t, ht, rfl⟩ := exists_of_mem_positionalsIn hw
  exact h.words t ht

/-- The null device is written as a variable of the same shape. -/
theorem interchangeable_nullDevice :
    Interchangeable "/dev/null".toList "$null".toList :=
  interchangeable_of_ordinary (by decide +kernel) (by decide +kernel) (by decide +kernel)
    (by decide +kernel)

/-- The source of a redirection reads the same without the `<` in front of it. -/
theorem leads_of_input {source : Text} {p : Point} (h : Leads .start ('<' :: source) p) :
    Leads .start source p := by
  rintro outer ⟨m, n⟩ ⟨hlevel, rfl⟩
  cases m with
  | start =>
    obtain ⟨hfound, hafter⟩ := h outer ⟨.start, outer + .top⟩ ⟨hlevel, rfl⟩
    rw [Scan.found_cons_of_ne (by decide) (by decide)] at hfound
    exact ⟨hfound, hafter⟩
  | _ => simp [ScanMode.level, Point.start] at hlevel

/-- What is left of a redirection of the input, and the redirections of the output. -/
theorem leads_inputAndOutputs {input : Option Text} {rs : List Text}
    (hinput : ∀ source ∈ input, Leads .start source .firm)
    (h : ∀ r ∈ rs, Leads .start r .firm) :
    (∀ source ∈ (inputAndOutputs input rs).1, Leads .start source .firm) ∧
      ∀ r ∈ (inputAndOutputs input rs).2, Leads .start r .firm := by
  fun_induction inputAndOutputs input rs with
  | case1 input => exact ⟨hinput, by simp⟩
  | case2 input => exact ⟨by simp, by simp⟩
  | case3 input source rs ih =>
    have hsource := h source (by simp)
    exact ih (fun r hr => Option.some.inj hr ▸ hsource) fun r hr => h r (by simp [hr])
  | case4 input r rs _ source hsource ih =>
    refine ih (fun u hu => ?_) fun u hu => h u (List.mem_cons_of_mem _ hu)
    obtain rfl : source = u := Option.some.inj hu
    obtain rfl : r = '<' :: source := Text.dropFront?_eq_some_iff.mp hsource
    exact leads_of_input (h _ List.mem_cons_self)
  | case5 input r rs _ hnone rest ih =>
    obtain ⟨hin, hout⟩ := ih hinput fun u hu => h u (List.mem_cons_of_mem _ hu)
    refine ⟨hin, fun u hu => ?_⟩
    rcases List.mem_cons.mp hu with rfl | hu
    · exact (h r List.mem_cons_self).replace interchangeable_nullDevice (by decide +kernel)
    · exact hout u hu

/-- A command with the redirections of its invocation. -/
theorem SelfContained.begins_finish (h : inv.SelfContained) {body : Text}
    (hbody : Begins body .firm) : Begins (inv.finish body) .firm := by
  obtain ⟨hin, hout⟩ := @leads_inputAndOutputs none inv.redirects (by simp)
    fun r hr => (h.redirects r hr).leads
  have hline := hbody.appendWord (leads_joinWords hout)
  rw [finish_eq]
  cases hsource : (inputAndOutputs none inv.redirects).1 with
  | none => exact hline
  | some source =>
    exact ((begins_getContent.append (hin source hsource)).append leads_pipe.firm).append
      hline.leads

end Invocation

end CrossShell
