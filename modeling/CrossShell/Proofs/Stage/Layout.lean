import CrossShell.Proofs.Token.Redirect
import CrossShell.Proofs.Token.Spans
import Mathlib.Data.List.Pairwise

/-!
# Stages written as words and redirections

A stage is a command word with words and redirections around it, in any order. A gap stands between
two of them; a redirection without a descriptor may also stand directly behind what is before it.

* `StageItem`: a word or a redirection. A word may be several tokens, as `"a"b` is.
* `Spaced`: which items may touch.
* `fused_itemsText`: each item keeps the tokens that it has by itself, moved to its place.
* `StageText`: the stages, with their command word singled out.
-/

namespace CrossShell

/-- A word of a stage: closed, with no redirection and no connector in it. -/
structure StageWord where
  /-- The word as it is written. -/
  text : Text
  completeBefore : CompleteBefore ' ' text
  closed : Closed text
  fused_ne_nil : fused text ≠ []
  inert : ∀ t ∈ fused text, t.isRedirect = false ∧ t.isConnector = false

/-- A word or a redirection. -/
inductive StageItem where
  /-- A word: the command, a flag or an argument. -/
  | word (w : StageWord)
  /-- A redirection with its target. -/
  | redirect (r : Redirect)

namespace StageItem

/-- The item as it is written. -/
def text : StageItem → Text
  | word w => w.text
  | redirect r => r.text

theorem completeBefore_text (i : StageItem) : CompleteBefore ' ' i.text := by
  cases i with
  | word w => exact w.completeBefore
  | redirect r => exact r.completeBefore_text (by decide)

theorem closed_text (i : StageItem) : Closed i.text := by
  cases i with
  | word w => exact w.closed
  | redirect r => exact r.closed_text

theorem isConnector_of_mem_fused (i : StageItem) : ∀ t ∈ fused i.text, t.isConnector = false := by
  cases i with
  | word w => exact fun t ht => (w.inert t ht).2
  | redirect r => exact r.isConnector_of_mem_fused

/-- Whether the next item may stand directly behind this one: a redirection without a descriptor,
whose operator is not protected and takes nothing before it for its descriptor. -/
def MayTouch (i : StageItem) : List (StageItem × Text) → Prop
  | [] => True
  | (word _, _) :: _ => False
  | (redirect r, _) :: _ =>
    r.descriptor = none ∧ CompleteBefore r.operator.char i.text ∧
      ∀ t ∈ fused i.text, t.stop = Text.size i.text → t.isDescriptor = false

theorem MayTouch.cases {i : StageItem} {rest : List (StageItem × Text)} (h : i.MayTouch rest) :
    rest = [] ∨ ∃ r gap rest', rest = (redirect r, gap) :: rest' ∧ r.descriptor = none ∧
      CompleteBefore r.operator.char i.text ∧
      ∀ t ∈ fused i.text, t.stop = Text.size i.text → t.isDescriptor = false := by
  cases rest with
  | nil => exact .inl rfl
  | cons next rest =>
    obtain ⟨j, gap⟩ := next
    cases j with
    | word w => cases h
    | redirect r => exact .inr ⟨r, gap, rest, rfl, h⟩

end StageItem

/-- Items with the gaps behind them. -/
def Spaced : List (StageItem × Text) → Prop
  | [] => True
  | (i, gap) :: rest => (∀ c ∈ gap, isGap c = true) ∧ (gap = [] → i.MayTouch rest) ∧ Spaced rest

/-- The items and gaps as they are written. -/
def itemsText : List (StageItem × Text) → Text
  | [] => []
  | (i, gap) :: rest => i.text ++ (gap ++ itemsText rest)

/-- The items with their places, the first at `pos`. -/
def placed : (pos : Nat) → List (StageItem × Text) → List (Nat × StageItem)
  | _, [] => []
  | pos, (i, gap) :: rest => (pos, i) :: placed (pos + (Text.size i.text + Text.size gap)) rest

/-- The tokens of an item at its place. -/
def tokensAt (p : Nat × StageItem) : List Token := (fused p.2.text).map (Token.shift p.1)

/-! ## Reading the items -/

theorem Token.shift_shift (m n : Nat) (t : Token) : (t.shift n).shift m = t.shift (m + n) := by
  simp [shift, Nat.add_assoc]

/-- A gap in front only moves the tokens. -/
theorem fused_gap {gap : Text} (hg : ∀ c ∈ gap, isGap c = true) (t : Text) :
    fused (gap ++ t) = (fused t).map (Token.shift (Text.size gap)) := by
  rw [fused, tokenize, tokenizeFrom_gap hg, Nat.zero_add, tokenizeFrom_eq]
  exact fuseWith_shift Fusion.all (inside_tokenize t) gap

/-- A redirection without a descriptor starts with the character of its operator. -/
theorem Redirect.exists_text_eq {r : Redirect} (hd : r.descriptor = none) :
    ∃ cs, r.text = r.operator.char :: cs := by
  obtain ⟨cs, hcs⟩ := r.operator.exists_text_eq
  exact ⟨cs ++ r.mark ++ (r.gap ++ r.target), by simp [text, head, front, hd, hcs]⟩

/-- What follows an item ends its last token. -/
theorem Spaced.startsApart {i : StageItem} {gap : Text} {rest : List (StageItem × Text)}
    (h : Spaced ((i, gap) :: rest)) : StartsApart (gap ++ itemsText rest) := by
  obtain ⟨hgap, htouch, -⟩ := h
  intro c hc
  cases gap with
  | cons g gap =>
    obtain rfl : g = c := Option.some.inj hc
    rw [hgap g List.mem_cons_self, Bool.true_or]
  | nil =>
    rcases (htouch rfl).cases with rfl | ⟨r, gap', rest', rfl, hdescriptor, -⟩
    · cases hc
    · obtain ⟨cs, hcs⟩ := Redirect.exists_text_eq hdescriptor
      rw [List.nil_append, itemsText, StageItem.text, hcs] at hc
      obtain rfl : r.operator.char = c := Option.some.inj hc
      rcases r.operator.char_cases with hchar | hchar <;> rw [hchar] <;> decide

/-- A redirection without a descriptor starts with its operator, whatever stands behind it. -/
theorem head?_tokenize_redirect {r : Redirect} (hd : r.descriptor = none) {tail : Text}
    (ht : StartsApart tail) :
    (tokenize (r.text ++ tail)).head? = some (bare r.operator.text 0) := by
  have hzero : Text.size r.front = 0 := by simp [Redirect.front, hd]
  rw [r.tokenize_text_append ht, Redirect.tokens, hd, hzero]
  rfl

/-- What follows a redirection touches it at most with an operator. -/
theorem Spaced.parted {r : Redirect} {gap : Text} {rest : List (StageItem × Text)}
    (h : Spaced ((.redirect r, gap) :: rest)) :
    Parted (tokenize r.text)
      ((tokenize (gap ++ itemsText rest)).map (Token.shift (Text.size r.text))) := by
  obtain ⟨hgap, htouch, hrest⟩ := h
  intro t ht s hs hmeet
  have hstop := (inside_tokenize r.text t ht).2
  rw [List.head?_map, Option.mem_def, Option.map_eq_some_iff] at hs
  obtain ⟨s₀, hs₀, rfl⟩ := hs
  have hstart : t.stop = Text.size r.text + s₀.start := beq_iff_eq.mp hmeet
  cases gap with
  | cons g gap =>
    have hpos := start_pos_of_isGap (hgap g List.mem_cons_self) hs₀
    omega
  | nil =>
    rcases (htouch rfl).cases with rfl | ⟨r', gap', rest', rfl, hdescriptor, -⟩
    · cases hs₀
    · have hhead := head?_tokenize_redirect hdescriptor hrest.startsApart
      obtain rfl : bare r'.operator.text 0 = s₀ := Option.some.inj (hhead.symm.trans hs₀)
      exact r'.operator.isRedirectOperator_text 0

/-- The operator at the front of a redirection opens no group. -/
theorem head?_fuseGroups_redirect {r : Redirect} (hd : r.descriptor = none) {gap : Text}
    {rest : List (StageItem × Text)} (h : Spaced ((.redirect r, gap) :: rest)) :
    (fuseGroups (r.text ++ (gap ++ itemsText rest))
      (tokenize (r.text ++ (gap ++ itemsText rest)))).head? = some (bare r.operator.text 0) := by
  have hzero : Text.size r.front = 0 := by simp [Redirect.front, hd]
  have hcloses : Closes r.text (Fusion.groups ++ [.descriptorRedirection]) (tokenize r.text) :=
    r.closed_text.closes (r.completeBefore_text (by decide))
  have hsingle : ∀ t ∈ tokenize r.text, t.Single := by
    rw [r.tokenize_text]
    exact r.single_of_mem_tokens
  rw [r.tokenize_text_append h.startsApart, ← r.tokenize_text, tokenizeFrom_eq,
    fuseGroups_append (inside_tokenize r.text) h.parted hcloses.append.1,
    fuseGroups_eq_self hsingle, r.tokenize_text, Redirect.tokens, hd, hzero]
  rfl

/-- **Items keep their tokens.** The tokens of a stage, read and fused, are those of its items, each
at its place. -/
theorem fused_itemsText {items : List (StageItem × Text)} (h : Spaced items) (pos : Nat) :
    (fused (itemsText items)).map (Token.shift pos) = (placed pos items).flatMap tokensAt := by
  induction items generalizing pos with
  | nil => rfl
  | cons item rest ih =>
    obtain ⟨i, gap⟩ := item
    have hsplit : fused (itemsText ((i, gap) :: rest)) = fused i.text ++
        (fused (gap ++ itemsText rest)).map (Token.shift (Text.size i.text)) := by
      obtain ⟨hgap, htouch, hrest⟩ := h
      cases gap with
      | cons g gap =>
        exact fused_append_gap i.completeBefore_text i.closed_text (hgap g List.mem_cons_self) _
      | nil =>
        rcases (htouch rfl).cases with rfl | ⟨r, gap', rest', rfl, hdescriptor, hbefore, hfree⟩
        · have hnil : fused [] = [] := rfl
          simp [itemsText, hnil]
        · obtain ⟨cs, hcs⟩ := Redirect.exists_text_eq hdescriptor
          have hhead := head?_tokenize_redirect hdescriptor hrest.startsApart
          have hkeep := head?_fuseGroups_redirect hdescriptor hrest
          simp only [itemsText, StageItem.text, List.nil_append]
          rw [hcs, List.cons_append] at hhead hkeep ⊢
          exact fused_append_redirect i.completeBefore_text i.closed_text r.operator.char_cases
            hbefore hfree hhead (r.operator.isRedirectOperator_text 0) hkeep
    have hrest := ih h.2.2 (pos + (Text.size i.text + Text.size gap))
    rw [hsplit, fused_gap h.1, placed, List.flatMap_cons, ← hrest]
    simp [tokensAt, Token.shift_shift, Function.comp_def]

/-! ## Places -/

theorem placed_append (pos : Nat) (items items' : List (StageItem × Text)) :
    placed pos (items ++ items') =
      placed pos items ++ placed (pos + Text.size (itemsText items)) items' := by
  induction items generalizing pos with
  | nil => rfl
  | cons item items ih =>
    obtain ⟨i, gap⟩ := item
    simp only [List.cons_append, placed, ih, itemsText, Text.size_append, Nat.add_assoc]

theorem mem_items_of_mem_placed {pos : Nat} {items : List (StageItem × Text)}
    {p : Nat × StageItem} (h : p ∈ placed pos items) : ∃ gap, (p.2, gap) ∈ items := by
  induction items generalizing pos with
  | nil => cases h
  | cons item items ih =>
    obtain ⟨i, gap⟩ := item
    rcases List.mem_cons.mp h with rfl | h
    · exact ⟨gap, List.mem_cons_self⟩
    · obtain ⟨gap', hmem⟩ := ih h
      exact ⟨gap', List.mem_cons_of_mem _ hmem⟩

theorem exists_mem_placed (pos : Nat) {items : List (StageItem × Text)} {item : StageItem × Text}
    (h : item ∈ items) : ∃ pos', (pos', item.1) ∈ placed pos items := by
  induction items generalizing pos with
  | nil => cases h
  | cons first items ih =>
    rcases List.mem_cons.mp h with rfl | h
    · exact ⟨pos, List.mem_cons_self⟩
    · obtain ⟨pos', hmem⟩ := ih (pos + (Text.size first.1.text + Text.size first.2)) h
      exact ⟨pos', List.mem_cons_of_mem _ hmem⟩

theorem le_of_mem_placed {pos : Nat} {items : List (StageItem × Text)} :
    ∀ p ∈ placed pos items, pos ≤ p.1 := by
  induction items generalizing pos with
  | nil => simp [placed]
  | cons item items ih =>
    obtain ⟨i, gap⟩ := item
    intro p hp
    rcases List.mem_cons.mp hp with rfl | hp
    · exact Nat.le_refl _
    · have := ih p hp
      omega

/-- One of the items ends before the other starts. -/
def ItemsApart (p q : Nat × StageItem) : Prop :=
  p.1 + Text.size p.2.text ≤ q.1 ∨ q.1 + Text.size q.2.text ≤ p.1

instance : Std.Symm ItemsApart := ⟨fun _ _ h => h.symm⟩

/-- Items do not overlap. -/
theorem pairwise_placed (pos : Nat) (items : List (StageItem × Text)) :
    (placed pos items).Pairwise ItemsApart := by
  induction items generalizing pos with
  | nil => exact .nil
  | cons item items ih =>
    obtain ⟨i, gap⟩ := item
    refine .cons (fun q hq => .inl ?_) (ih _)
    have hle := le_of_mem_placed q hq
    show pos + Text.size i.text ≤ q.1
    omega

/-- A fused token starts inside its text. -/
theorem start_lt_of_mem_fused {w : Text} {t : Token} (h : t ∈ fused w) : t.start < Text.size w := by
  have hall : t ∈ fuseWith Fusion.all w (tokenize w) := h
  obtain ⟨⟨u, hu, hstart⟩, -⟩ := exists_of_mem_fuseWith hall
  have hlt := start_lt_stop_of_mem_tokenizeFrom u hu
  have hstop := (inside_tokenize w u hu).2
  omega

/-! ## Stages -/

/-- A stage: redirections, a command word, and behind it words and redirections in any order. -/
structure StageText where
  /-- The gap in front. -/
  lead : Text
  /-- The redirections before the command word, with the gaps behind them. -/
  front : List (Redirect × Text)
  /-- The command word. -/
  command : StageWord
  /-- The gap behind it. -/
  gap : Text
  /-- The words and redirections behind the command word, with the gaps behind them. -/
  behind : List (StageItem × Text)
  isGap_of_mem_lead : ∀ c ∈ lead, isGap c = true
  spaced : Spaced (front.map (fun p => (.redirect p.1, p.2)) ++ (.word command, gap) :: behind)

namespace StageText

variable (s : StageText)

/-- The redirections before the command word, as items. -/
def frontItems : List (StageItem × Text) := s.front.map fun p => (.redirect p.1, p.2)

/-- All items, in order. -/
def items : List (StageItem × Text) := s.frontItems ++ (.word s.command, s.gap) :: s.behind

/-- The stage as it is written. -/
def text : Text := s.lead ++ itemsText s.items

/-- The place of the command word. -/
def commandPlace : Nat := Text.size s.lead + Text.size (itemsText s.frontItems)

/-- The items behind the command word, with their places. -/
def behindPlaces : List (Nat × StageItem) :=
  placed (s.commandPlace + (Text.size s.command.text + Text.size s.gap)) s.behind

/-- All items, with their places. -/
def places : List (Nat × StageItem) := placed (Text.size s.lead) s.items

theorem places_eq : s.places =
    placed (Text.size s.lead) s.frontItems ++
      (s.commandPlace, .word s.command) :: s.behindPlaces := by
  rw [places, items, placed_append]
  rfl

theorem fused_text : fused s.text = s.places.flatMap tokensAt := by
  rw [text, fused_gap s.isGap_of_mem_lead]
  exact fused_itemsText s.spaced _

/-- A token that starts inside of a redirection. -/
def Covers (t : Token) : Prop :=
  ∃ pos r, (pos, StageItem.redirect r) ∈ s.places ∧ pos ≤ t.start ∧ t.start < pos + Text.size r.text

theorem covers_of_mem {pos : Nat} {r : Redirect} (h : (pos, StageItem.redirect r) ∈ s.places)
    {t : Token} (ht : t ∈ fused r.text) : s.Covers (t.shift pos) := by
  have hlt := start_lt_of_mem_fused ht
  refine ⟨pos, r, h, Nat.le_add_right _ _, ?_⟩
  show pos + t.start < pos + Text.size r.text
  omega

/-- The tokens of words are not inside of redirections. -/
theorem not_covers_of_mem {pos : Nat} {w : StageWord} (h : (pos, StageItem.word w) ∈ s.places)
    {t : Token} (ht : t ∈ fused w.text) : ¬s.Covers (t.shift pos) := by
  rintro ⟨pos', r, hr, hle, hlt⟩
  have hinside := start_lt_of_mem_fused ht
  have hstart : (t.shift pos).start = pos + t.start := rfl
  rcases (pairwise_placed (Text.size s.lead) s.items).forall h hr (by simp) with hside | hside
  · have hbefore : pos + Text.size w.text ≤ pos' := hside
    omega
  · have hafter : pos' + Text.size r.text ≤ pos := hside
    omega

end StageText

end CrossShell
