import CrossShell.Proofs.Special.Given
import CrossShell.Proofs.Stage.Finish

/-!
# The own options of `xargs`

The words in front of the command that `xargs` runs are its own: options by letters, `-I` and `-n`
with a value. What it runs for an item is the command behind them, with the item at its end, or in
place of the text that `-I` names; `-0` splits the input at NUL. The options are looked up among all
words, so those of the wrapped command are taken for its own as well.

* `Xargs.own`, `Xargs.wrapped`: the words of `xargs` and those of the command it runs.
* `StageConverter.HandsOn`: which line a stage hands on, and what is put around its conversion.
* `Xargs.own_options_only_iff`: when only its own options count.
-/

namespace CrossShell

/-! ## What a stage hands on -/

/-- The stage hands `line` on and puts `around` about its conversion, whatever wrapped commands
become. -/
def StageConverter.HandsOn (r : StageConverter) (stage line : Text) (around : Text → Text) : Prop :=
  ∀ nested, r.convertStage? nested stage = (nested line).map around

/-- There is one line that a stage hands on, and one way to go on with it. -/
theorem StageConverter.HandsOn.unique {r : StageConverter} {stage line line' : Text}
    {around around' : Text → Text} (h : r.HandsOn stage line around)
    (h' : r.HandsOn stage line' around') : line = line' ∧ around = around' := by
  -- A conversion that knows one line only tells the lines apart.
  have hboth := fun text =>
    (h fun t => if t = line then some text else none).symm.trans (h' _)
  obtain rfl : line' = line := by
    have hfirst := hboth []
    by_cases hline : line' = line
    · exact hline
    · simp [hline] at hfirst
  exact ⟨rfl, funext fun text => by simpa using hboth text⟩

/-! ## Items in a command -/

/-- A text that lacks a character brings none of it into another. -/
theorem Text.count_replaceFrom_le {c : Char} {new : Text} (hnew : c ∉ new) (old : Text) (skip : Nat)
    (t : Text) : (Text.replaceFrom old new skip t).count c ≤ t.count c := by
  induction t generalizing skip with
  | nil => cases skip <;> simp [replaceFrom]
  | cons d ds ih =>
    have hcons : ds.count c ≤ (d :: ds).count c := by simp [List.count_cons]
    cases skip with
    | succ skip =>
      rw [replaceFrom]
      exact Nat.le_trans (ih skip) hcons
    | zero =>
      rw [replaceFrom]
      split
      · rw [List.count_append, List.count_eq_zero.mpr hnew, Nat.zero_add]
        exact Nat.le_trans (ih _) hcons
      · rw [List.count_cons, List.count_cons]
        exact Nat.add_le_add_right (ih 0) _

/-- An item in place of another text is never an item at the end: that one adds a space. -/
theorem Text.replace_ne_append_item (old t : Text) :
    Text.replace old "$_" t ≠ t ++ " $_".toList := by
  intro h
  have hle : (Text.replace old "$_" t).count ' ' ≤ t.count ' ' :=
    Text.count_replaceFrom_le (by decide) old 0 t
  rw [h, List.count_append] at hle
  have hspace : (" $_".toList).count ' ' = 1 := by decide
  omega

/-- The line that runs for an item: the item stands at the end of the command, or for each text that
is to be replaced in its place. -/
def ItemLine (placeholders : List Text) (command line : Text) : Prop :=
  (placeholders = [] → line = command ++ " $_".toList) ∧
    ∀ p ∈ placeholders, line = Text.replace p "$_" command

/-- The line that is made of a command, with the text that is found to be replaced. -/
def itemLineFor (found : Option Text) (command : Text) : Text :=
  match found with
  | some p => Text.replace p "$_" command
  | none => command ++ " $_".toList

/-- What is found is what is given: nothing, or a text whose place is that of each of them. -/
def Agrees (found : Option Text) (placeholders : List Text) (command : Text) : Prop :=
  match found with
  | some p => placeholders ≠ [] ∧
      ∀ q ∈ placeholders, Text.replace p "$_" command = Text.replace q "$_" command
  | none => placeholders = []

theorem itemLine_iff_agrees {found : Option Text} {placeholders : List Text} {command : Text} :
    ItemLine placeholders command (itemLineFor found command) ↔
      Agrees found placeholders command := by
  cases found with
  | none =>
    constructor
    · intro ⟨_, hreplaced⟩
      cases placeholders with
      | nil => rfl
      | cons p ps =>
        exact absurd (hreplaced p List.mem_cons_self).symm (Text.replace_ne_append_item p command)
    · intro hnil
      exact ⟨fun _ => rfl, fun p hp => absurd (hnil ▸ hp) List.not_mem_nil⟩
  | some p =>
    constructor
    · intro ⟨happended, hreplaced⟩
      exact ⟨fun hnil => Text.replace_ne_append_item p command (happended hnil), hreplaced⟩
    · intro ⟨hne, hreplaced⟩
      exact ⟨fun hnil => absurd hnil hne, hreplaced⟩

/-- The first of the texts that are given stands for all, and nothing else is found without one. -/
theorem agrees_head?_or_iff {placeholders : List Text} {other : Option Text} {command : Text} :
    Agrees (placeholders.head?.or other) placeholders command ↔
      (placeholders = [] → other = none) ∧ ∀ p ∈ placeholders, ∀ q ∈ placeholders,
        Text.replace p "$_" command = Text.replace q "$_" command := by
  cases placeholders with
  | nil => cases other <;> simp [Agrees]
  | cons p ps =>
    constructor
    · intro ⟨_, hfirst⟩
      exact ⟨nofun, fun q hq q' hq' => (hfirst q hq).symm.trans (hfirst q' hq')⟩
    · intro ⟨_, hall⟩
      exact ⟨List.cons_ne_nil p ps, hall p List.mem_cons_self⟩

namespace Xargs

/-- The letters with a value. -/
def valued : List Char := ['I', 'n']

variable {words : List TaggedToken}

/-- The words in front of the wrapped command. -/
def own (words : List TaggedToken) : List TaggedToken := words.take (ownLength valued none words)

/-- The words of the wrapped command. -/
def wrapped (words : List TaggedToken) : List TaggedToken :=
  words.drop (ownLength valued none words)

/-- The options that stand in front of the wrapped command. -/
def options (words : List TaggedToken) : List Given := (readWords valued none (own words)).1

/-- The texts whose place an item takes. -/
def placeholders (words : List TaggedToken) : List Text := valuesOf 'I' (options words)

/-- Whether the input is split at NUL. -/
def splitsAtNul (words : List TaggedToken) : Bool := (options words).contains (.switch '0')

/-- The stages that split the input at NUL. -/
def nulSplit : Text :=
  forEachItem "$_ -split \"`0\"" ++ " | Where-Object " ++ scriptBlock "$_" ++ " | "

/-- A command that runs for each item of the input, split at NUL or not. -/
def perItem (nul : Bool) (command : Text) : Text :=
  (if nul then nulSplit else []) ++ forEachItem command

/-- The same with the redirections of an invocation. -/
def forEach (inv : Invocation) (nul : Bool) (command : Text) : Text :=
  inv.finish (perItem nul command)

/-- Only the options in front of the wrapped command say how it is run. -/
def OwnOptionsOnly (r : StageConverter) (inv : Invocation) : Prop :=
  ∃ command line, inv.textOf? (wrapped inv.words) = some command ∧
    ItemLine (placeholders inv.words) command line ∧
    r.HandsOn inv.stage line (forEach inv (splitsAtNul inv.words))

theorem convertXargs?_eq (nested : Nested) (inv : Invocation) :
    convertXargs? nested inv = (itemCommand? inv).bind fun line =>
      (nested line).map (forEach inv (inv.hasFlag "-0")) := by
  unfold convertXargs?
  cases itemCommand? inv with
  | none => rfl
  | some line => cases h : nested line <;> simp [h, forEach, perItem, nulSplit]

/-- Splitting at NUL can be read off. -/
theorem forEach_injective (inv : Invocation) : Function.Injective (forEach inv) := by
  intro a b h
  have hbody := List.append_cancel_right (inv.finish_injective (congrFun h []))
  have hsplit : nulSplit ≠ [] := List.cons_ne_nil 'F' _
  cases a <;> cases b <;> simp_all

/-! ## Where the wrapped command begins -/

/-- A letter that waits for its value in the next word has a flag of its own. -/
def Aligned (words : List TaggedToken) : Prop :=
  ∀ t ∈ own words, t.isFlag = true → ∀ c ∈ (readFlag valued t.value).2, t.value = letterFlag c

/-- A flag takes the next word for its value if one of its letters waits for it. -/
theorem contains_eq_isSome {flag : Text}
    (h : ∀ c ∈ (readFlag valued flag).2, flag = letterFlag c) :
    ["-I".toList, "-n".toList].contains flag = (readFlag valued flag).2.isSome := by
  cases hwaiting : (readFlag valued flag).2 with
  | none =>
    have hI : flag ≠ ['-', 'I'] := by rintro rfl; cases hwaiting
    have hn : flag ≠ ['-', 'n'] := by rintro rfl; cases hwaiting
    simp [hI, hn]
  | some c =>
    have hc : c = 'I' ∨ c = 'n' := by simpa [valued] using mem_of_readFlag hwaiting
    rw [h c hwaiting]
    rcases hc with rfl | rfl <;> rfl

theorem commandIn?_eq (waiting : Option Char)
    (h : ∀ t ∈ words.take (ownLength valued waiting words), t.isFlag = true →
      ∀ c ∈ (readFlag valued t.value).2, t.value = letterFlag c)
    (hlength : ownLength valued waiting words < words.length) :
    Invocation.commandIn? ["-I", "-n"] waiting.isSome words =
      some (ownLength valued waiting words) := by
  induction words generalizing waiting with
  | nil => cases hlength
  | cons t ts ih =>
    cases waiting with
    | some c =>
      rw [ownLength] at h hlength ⊢
      have hts := ih none (fun u hu => h u (List.mem_cons_of_mem _ hu)) (by simpa using hlength)
      rw [Option.isSome_some, Invocation.commandIn?, ← Option.isSome_none, hts]
      rfl
    | none =>
      rw [Option.isSome_none, Invocation.commandIn?]
      rw [ownLength] at h hlength ⊢
      cases hflag : t.isFlag with
      | false => rfl
      | true =>
        simp only [hflag, if_true] at h hlength ⊢
        have hcontains := contains_eq_isSome (h t List.mem_cons_self hflag)
        have hts := ih (readFlag valued t.value).2 (fun u hu => h u (List.mem_cons_of_mem _ hu))
          (by simpa using hlength)
        rw [hcontains, hts]
        rfl

/-- The wrapped command is found where it begins, if no cluster waits for a value. -/
theorem itemCommand?_eq {inv : Invocation} (haligned : Aligned inv.words)
    (hwrapped : wrapped inv.words ≠ []) : itemCommand? inv =
      (inv.textOf? (wrapped inv.words)).map (itemLineFor (inv.optionValue? "-I")) := by
  have hlength : ownLength valued none inv.words < inv.words.length :=
    Nat.lt_of_not_le fun hle => hwrapped (List.drop_eq_nil_of_le hle)
  have hindex : inv.commandIndex? ["-I", "-n"] = some (ownLength valued none inv.words) :=
    commandIn?_eq none haligned hlength
  have hfrom : inv.textFrom? (ownLength valued none inv.words) =
      inv.textOf? (wrapped inv.words) := rfl
  unfold itemCommand?
  rw [hindex]
  simp only [hfrom]
  cases inv.textOf? (wrapped inv.words) <;> cases inv.optionValue? "-I" <;> rfl

/-! ## Options that are words of their own -/

/-- Whether each option is a word of its own, with its value in the same word or in the next one,
which is no flag. `value` says that the first word is a value. -/
def separate : (value : Bool) → List TaggedToken → Bool
  | _, [] => true
  | true, t :: ts => !t.isFlag && separate false ts
  | false, t :: ts =>
    (t.value == letterFlag '0' || t.value == letterFlag 'r' ||
        valued.any fun c => (letterFlag c).isPrefixOf t.value) &&
      separate (valued.any fun c => t.value == letterFlag c) ts

theorem ne_dash_of_mem_valued {c : Char} (hc : c ∈ valued) : c ≠ '-' := by
  rintro rfl
  exact absurd hc (by decide)

/-- What a separate option is: a switch, or a letter with its value. -/
theorem separate_cons {t : TaggedToken} {ts : List TaggedToken}
    (h : separate false (t :: ts) = true) :
    (∃ c, c ∉ valued ∧ t.value = letterFlag c ∧ readFlag valued t.value = ([.switch c], none) ∧
        separate false ts = true) ∨
      (∃ c ∈ valued, t.value = letterFlag c ∧ readFlag valued t.value = ([], some c) ∧
        separate true ts = true) ∨
      ∃ c ∈ valued, ∃ value ≠ [], t.value = letterFlag c ++ value ∧
        readFlag valued t.value = ([.setting c value], none) ∧ separate false ts = true := by
  rw [separate, Bool.and_eq_true] at h
  obtain ⟨hoption, hts⟩ := h
  rw [Bool.or_eq_true, Bool.or_eq_true] at hoption
  rcases hoption with (h0 | hr) | hvalued
  · have hvalue : t.value = letterFlag '0' := by simpa using h0
    rw [hvalue] at hts ⊢
    exact .inl ⟨'0', by decide, rfl, rfl, hts⟩
  · have hvalue : t.value = letterFlag 'r' := by simpa using hr
    rw [hvalue] at hts ⊢
    exact .inl ⟨'r', by decide, rfl, rfl, hts⟩
  · obtain ⟨c, hc, hfront⟩ := List.any_eq_true.mp hvalued
    obtain ⟨rest, hrest⟩ := List.isPrefixOf_iff_prefix.mp hfront
    have hread := readFlag_letterFlag_append hc (ne_dash_of_mem_valued hc) rest
    rw [hrest] at hread
    right
    cases rest with
    | nil =>
      left
      have hvalue : t.value = letterFlag c := by simpa using hrest.symm
      have hnext : (valued.any fun d => t.value == letterFlag d) = true :=
        List.any_eq_true.mpr ⟨c, hc, by simpa using hvalue⟩
      rw [hnext] at hts
      exact ⟨c, hc, hvalue, hread, hts⟩
    | cons d ds =>
      right
      have hnext : (valued.any fun e => t.value == letterFlag e) = false := by
        simp [← hrest, letterFlag]
      rw [hnext] at hts
      exact ⟨c, hc, d :: ds, List.cons_ne_nil d ds, hrest.symm, hread, hts⟩

/-- Separate options are aligned. -/
theorem aligned_of_separate {ws : List TaggedToken} (value : Bool) (h : separate value ws = true) :
    ∀ t ∈ ws, t.isFlag = true → ∀ c ∈ (readFlag valued t.value).2, t.value = letterFlag c := by
  induction ws generalizing value with
  | nil => simp
  | cons t ts ih =>
    cases value with
    | true =>
      rw [separate, Bool.and_eq_true] at h
      intro u hu hflag
      rcases List.mem_cons.mp hu with rfl | hu
      · simp [hflag] at h
      · exact ih false h.2 u hu hflag
    | false =>
      obtain ⟨hfirst, next, hts⟩ : (∀ c ∈ (readFlag valued t.value).2, t.value = letterFlag c) ∧
          ∃ next, separate next ts = true := by
        rcases separate_cons h with ⟨c, -, -, hread, hts⟩ | ⟨c, -, hvalue, hread, hts⟩ |
          ⟨c, -, _, -, -, hread, hts⟩ <;> rw [hread]
        · exact ⟨nofun, false, hts⟩
        · exact ⟨fun d hd => Option.some.inj hd ▸ hvalue, true, hts⟩
        · exact ⟨nofun, false, hts⟩
      intro u hu hflag
      rcases List.mem_cons.mp hu with rfl | hu
      · exact hfirst
      · exact ih next hts u hu hflag

/-- Among separate options `-0` is a flag. -/
theorem switch_mem_iff (waiting : Option Char)
    (h : separate waiting.isSome (words.take (ownLength valued waiting words)) = true) :
    Given.switch '0' ∈ (readWords valued waiting (words.take (ownLength valued waiting words))).1 ↔
      ∃ t ∈ words.take (ownLength valued waiting words),
        t.isFlag = true ∧ t.value = letterFlag '0' := by
  induction words generalizing waiting with
  | nil => simp [readWords]
  | cons t ts ih =>
    cases waiting with
    | some c =>
      rw [ownLength, List.take_succ_cons] at h ⊢
      rw [Option.isSome_some, separate, Bool.and_eq_true] at h
      have hflag : t.isFlag = false := by simpa using h.1
      simpa [readWords, hflag] using ih none h.2
    | none =>
      rw [ownLength] at h ⊢
      cases hflag : t.isFlag with
      | false => simp [readWords]
      | true =>
        simp only [hflag, if_true, List.take_succ_cons] at h ⊢
        rw [readWords]
        simp only [hflag, if_true]
        rcases separate_cons h with ⟨c, -, hvalue, hread, hts⟩ | ⟨c, hc, hvalue, hread, hts⟩ |
          ⟨c, hc, value, hne, hvalue, hread, hts⟩ <;> rw [hread] at hts ⊢
        · have hts := ih none hts
          by_cases hzero : c = '0'
          · simp [hzero, hflag, hvalue]
          · simpa [hvalue, letterFlag, hzero, Ne.symm hzero] using hts
        · have hzero : c ≠ '0' := by rintro rfl; exact absurd hc (by decide)
          simp [ih (some c) hts, hvalue, letterFlag, hzero]
        · simp [ih none hts, hvalue, letterFlag, hne]

/-- A flag that carries a value for `-I`. -/
theorem optionIn?_attached {t : TaggedToken} (ts : List TaggedToken) {value : Text}
    (hflag : t.isFlag = true) (hne : value ≠ []) (hvalue : t.value = letterFlag 'I' ++ value) :
    Invocation.optionIn? (letterFlag 'I') (t :: ts) = some value := by
  obtain ⟨d, ds, rfl⟩ := List.exists_cons_of_ne_nil hne
  have hattached : Invocation.attachedValue? (letterFlag 'I') t.value = some (d :: ds) := by
    rw [hvalue]
    rfl
  rw [Invocation.optionIn?, hattached]
  simp [hflag, hvalue, letterFlag]

/-- A flag with another letter in front says nothing about `-I`. -/
theorem optionIn?_other {t : TaggedToken} (ts : List TaggedToken) {c : Char} {value : Text}
    (hflag : t.isFlag = true) (hc : c ≠ 'I') (hvalue : t.value = letterFlag c ++ value) :
    Invocation.optionIn? (letterFlag 'I') (t :: ts) = Invocation.optionIn? (letterFlag 'I') ts := by
  have hattached : Invocation.attachedValue? (letterFlag 'I') t.value = none := by
    simp [hvalue, Invocation.attachedValue?, Text.dropFront?, letterFlag, hc.symm]
  rw [Invocation.optionIn?, hattached]
  simp [hflag, hvalue, letterFlag, hc]

/-- Among separate options the first placeholder is found, else one of the wrapped command. -/
theorem optionIn?_eq_or (waiting : Option Char) (hwaiting : waiting ≠ some 'I')
    (h : separate waiting.isSome (words.take (ownLength valued waiting words)) = true) :
    Invocation.optionIn? (letterFlag 'I') words =
      (valuesOf 'I' (readWords valued waiting
        (words.take (ownLength valued waiting words))).1).head?.or
        (Invocation.optionIn? (letterFlag 'I') (words.drop (ownLength valued waiting words))) := by
  induction words generalizing waiting with
  | nil => simp [readWords, valuesOf, Invocation.optionIn?]
  | cons t ts ih =>
    cases waiting with
    | some c =>
      have hc : c ≠ 'I' := fun hc => hwaiting (congrArg some hc)
      rw [ownLength, List.take_succ_cons] at h ⊢
      rw [Option.isSome_some, separate, Bool.and_eq_true] at h
      have hflag : t.isFlag = false := by simpa using h.1
      rw [Invocation.optionIn?, List.drop_succ_cons, readWords]
      simpa [hflag, valuesOf, Given.valueOf?, hc] using ih none (Option.some_ne_none _).symm h.2
    | none =>
      rw [ownLength] at h ⊢
      cases hflag : t.isFlag with
      | false => simp [readWords, valuesOf]
      | true =>
        simp only [hflag, if_true, List.take_succ_cons, List.drop_succ_cons] at h ⊢
        rw [readWords]
        simp only [hflag, if_true]
        rcases separate_cons h with ⟨c, hc, hvalue, hread, hts⟩ | ⟨c, hc, hvalue, hread, hts⟩ |
          ⟨c, hc, value, hne, hvalue, hread, hts⟩ <;> rw [hread] at hts ⊢
        · have hI : c ≠ 'I' := by rintro rfl; exact hc (by decide)
          rw [optionIn?_other ts hflag hI (hvalue.trans (List.append_nil _).symm)]
          exact ih none (Option.some_ne_none _).symm hts
        · by_cases hI : c = 'I'
          -- The value of `-I` is the next word, in both readings.
          · subst hI
            cases ts <;> simp [hflag, hvalue, ownLength, readWords, valuesOf, Given.valueOf?,
              Invocation.optionIn?]
          · rw [optionIn?_other ts hflag hI (hvalue.trans (List.append_nil _).symm)]
            exact ih (some c) (fun h => hI (Option.some.inj h)) hts
        · by_cases hI : c = 'I'
          · subst hI
            rw [optionIn?_attached ts hflag hne hvalue]
            rfl
          · have hnone : valuesOf 'I' [.setting c value] = [] := by
              simp [valuesOf, Given.valueOf?, hI]
            rw [optionIn?_other ts hflag hI hvalue, valuesOf_append, hnone]
            exact ih none (Option.some_ne_none _).symm hts

/-- With separate options the rest is up to the wrapped command: its `-0` counts, and its `-I` if
there is no own one. -/
theorem found_of_separate {inv : Invocation} (h : separate false (own inv.words) = true) :
    Aligned inv.words ∧
      inv.optionValue? "-I" = (placeholders inv.words).head?.or
        (Invocation.optionIn? "-I" (wrapped inv.words)) ∧
      (inv.hasFlag "-0" = true ↔ splitsAtNul inv.words = true ∨
        ∃ t ∈ wrapped inv.words, t.isFlag = true ∧ t.value = letterFlag '0') := by
  refine ⟨aligned_of_separate false h, optionIn?_eq_or none nofun h, ?_⟩
  have hown := switch_mem_iff none h
  have hsplit : splitsAtNul inv.words = true ↔
      ∃ t ∈ own inv.words, t.isFlag = true ∧ t.value = letterFlag '0' := by
    rw [splitsAtNul, List.contains_iff_mem]
    exact hown
  have hall : inv.hasFlag "-0" = true ↔
      ∃ t ∈ inv.words, t.isFlag = true ∧ t.value = letterFlag '0' := by
    simp only [Invocation.hasFlag, Invocation.flags, List.contains_iff_mem, List.mem_map,
      List.mem_filter, and_assoc]
    rfl
  have hwords (t : TaggedToken) : t ∈ inv.words ↔ t ∈ own inv.words ∨ t ∈ wrapped inv.words := by
    rw [← List.mem_append, own, wrapped, List.take_append_drop]
  simp only [hall, hsplit, hwords, or_and_right, exists_or]

/-! ## The main result -/

/-- A changed stage hands on the line made with what is found among all words. -/
theorem handsOn_of_aligned {r : StageConverter} {depth : Nat} {inv : Invocation}
    (hinv : Invocation.ofTagged? inv.stage (tagStage inv.stage) = some inv)
    (hname : inv.name = "xargs") (hchanged : r.convertStageAt depth inv.stage ≠ inv.stage)
    (hwrapped : wrapped inv.words ≠ []) (haligned : Aligned inv.words) :
    ∃ command, inv.textOf? (wrapped inv.words) = some command ∧
      r.HandsOn inv.stage (itemLineFor (inv.optionValue? "-I") command)
        (forEach inv (inv.hasFlag "-0")) := by
  have hspecial : Special.ofName? inv.name = some .xargs := by rw [hname]; decide
  have hcommand := inv.textOf?_of_ne_nil hwrapped
  refine ⟨_, hcommand, fun nested => ?_⟩
  have hrule := StageConverter.convertStage?_eq_counterpart? hinv hspecial
    (StageConverter.isSome_of_changed hchanged) nested
  rw [hrule, Special.counterpart?, convertXargs?_eq, itemCommand?_eq haligned hwrapped, hcommand]
  rfl

theorem ownOptionsOnly_iff_of_aligned {r : StageConverter} {depth : Nat} {inv : Invocation}
    (hinv : Invocation.ofTagged? inv.stage (tagStage inv.stage) = some inv)
    (hname : inv.name = "xargs") (hchanged : r.convertStageAt depth inv.stage ≠ inv.stage)
    (hwrapped : wrapped inv.words ≠ []) (haligned : Aligned inv.words) :
    OwnOptionsOnly r inv ↔
      (∀ command ∈ inv.textOf? (wrapped inv.words),
        Agrees (inv.optionValue? "-I") (placeholders inv.words) command) ∧
      inv.hasFlag "-0" = splitsAtNul inv.words := by
  obtain ⟨command, hcommand, hhands⟩ := handsOn_of_aligned hinv hname hchanged hwrapped haligned
  constructor
  · rintro ⟨command', line, hcommand', hline, hhands'⟩
    obtain rfl : command = command' := Option.some.inj (hcommand.symm.trans hcommand')
    obtain ⟨rfl, haround⟩ := hhands.unique hhands'
    refine ⟨fun c hc => ?_, forEach_injective inv haround⟩
    obtain rfl : command = c := Option.some.inj (hcommand.symm.trans hc)
    exact itemLine_iff_agrees.mp hline
  · rintro ⟨hagrees, hnul⟩
    rw [hnul] at hhands
    exact ⟨command, _, hcommand, itemLine_iff_agrees.mpr (hagrees command hcommand), hhands⟩

/-- **The options of the wrapped command.** Let a stage of `xargs` with a wrapped command be
changed. If no cluster waits for a value, only the own options count exactly if `-I` is found with
what it is given and `-0` is found where it is given. If the own options are separate words, this
says that the wrapped command has no `-I` unless there is an own one, that several own ones come to
the same, and that the wrapped command has no `-0` unless there is an own one. -/
theorem own_options_only_iff (r : StageConverter) (depth : Nat) {inv : Invocation}
    (hinv : Invocation.ofTagged? inv.stage (tagStage inv.stage) = some inv)
    (hname : inv.name = "xargs") (hchanged : r.convertStageAt depth inv.stage ≠ inv.stage)
    (hwrapped : wrapped inv.words ≠ []) :
    (Aligned inv.words → (OwnOptionsOnly r inv ↔
      (∀ command ∈ inv.textOf? (wrapped inv.words),
        Agrees (inv.optionValue? "-I") (placeholders inv.words) command) ∧
      inv.hasFlag "-0" = splitsAtNul inv.words)) ∧
    (separate false (own inv.words) = true → (OwnOptionsOnly r inv ↔
      (placeholders inv.words = [] → Invocation.optionIn? "-I" (wrapped inv.words) = none) ∧
      (∀ command ∈ inv.textOf? (wrapped inv.words), ∀ p ∈ placeholders inv.words,
        ∀ q ∈ placeholders inv.words,
          Text.replace p "$_" command = Text.replace q "$_" command) ∧
      (splitsAtNul inv.words = true ∨
        ∀ t ∈ wrapped inv.words, t.isFlag = true → t.value ≠ letterFlag '0'))) := by
  have hgeneral := ownOptionsOnly_iff_of_aligned hinv hname hchanged hwrapped
  refine ⟨hgeneral, fun hseparate => ?_⟩
  obtain ⟨haligned, hfound, hflag⟩ := found_of_separate hseparate
  have hnul : inv.hasFlag "-0" = splitsAtNul inv.words ↔ (splitsAtNul inv.words = true ∨
      ∀ t ∈ wrapped inv.words, t.isFlag = true → t.value ≠ letterFlag '0') := by
    rw [Bool.eq_iff_iff, hflag, or_iff_left_iff_imp]
    grind
  have hcommand := inv.textOf?_of_ne_nil hwrapped
  rw [hgeneral haligned, hfound, hnul, hcommand, ← and_assoc]
  simp only [Option.mem_some_iff, forall_eq', agrees_head?_or_iff]

/-- An `xargs` that replaces `{}` in a command with a `-I` of its own. -/
def replacingInvocation : Invocation :=
  ⟨"xargs", "xargs -0 -I {} grep -I x {} > log",
    [⟨⟨"-0", 6, 8, none⟩, .flag⟩, ⟨⟨"-I", 9, 11, none⟩, .flag⟩,
      ⟨⟨"{}", 12, 14, none⟩, .argument⟩, ⟨⟨"grep", 15, 19, none⟩, .argument⟩,
      ⟨⟨"-I", 20, 22, none⟩, .flag⟩, ⟨⟨"x", 23, 24, none⟩, .argument⟩,
      ⟨⟨"{}", 25, 27, none⟩, .argument⟩],
    [">", "log"]⟩

/-- The `-I` of the wrapped command is not asked for behind an own one. -/
theorem own_options_only_replacing :
    let r : StageConverter := ⟨.builtin, .powerShell (some 7)⟩
    Invocation.ofTagged? replacingInvocation.stage (tagStage replacingInvocation.stage) =
        some replacingInvocation ∧
      placeholders replacingInvocation.words = ["{}".toList] ∧
      splitsAtNul replacingInvocation.words = true ∧ OwnOptionsOnly r replacingInvocation := by
  intro r
  obtain ⟨hinv, hname, hgiven, hnul, hchanged, hwrapped, hseparate⟩ :
      Invocation.ofTagged? replacingInvocation.stage (tagStage replacingInvocation.stage) =
          some replacingInvocation ∧
        replacingInvocation.name = "xargs" ∧
        placeholders replacingInvocation.words = ["{}".toList] ∧
        splitsAtNul replacingInvocation.words = true ∧
        r.convertStageAt 8 replacingInvocation.stage ≠ replacingInvocation.stage ∧
        wrapped replacingInvocation.words ≠ [] ∧
        separate false (own replacingInvocation.words) = true := by decide +kernel
  refine ⟨hinv, hgiven, hnul,
    ((own_options_only_iff r 8 hinv hname hchanged hwrapped).2 hseparate).mpr ?_⟩
  rw [hgiven]
  simp [hnul]

/-- An `xargs` without options, in front of a command with `-I`. -/
def searchingInvocation : Invocation :=
  ⟨"xargs", "xargs grep -I foo",
    [⟨⟨"grep", 6, 10, none⟩, .argument⟩, ⟨⟨"-I", 11, 13, none⟩, .flag⟩,
      ⟨⟨"foo", 14, 17, none⟩, .argument⟩], []⟩

/-- **A borrowed option.** The `-I` of this `grep` is taken for one of `xargs`: what is searched for
is replaced by the file to search. -/
theorem borrowed_placeholder :
    let r : StageConverter := ⟨.builtin, .powerShell (some 7)⟩
    Invocation.ofTagged? searchingInvocation.stage (tagStage searchingInvocation.stage) =
        some searchingInvocation ∧
      own searchingInvocation.words = [] ∧ placeholders searchingInvocation.words = [] ∧
      r.convertStage searchingInvocation.stage = "ForEach-Object { grep -I $_ }" ∧
      ¬OwnOptionsOnly r searchingInvocation := by
  intro r
  obtain ⟨hinv, hname, hown, hgiven, hconvert, hchanged, hwrapped, hseparate, hfound⟩ :
      Invocation.ofTagged? searchingInvocation.stage (tagStage searchingInvocation.stage) =
          some searchingInvocation ∧
        searchingInvocation.name = "xargs" ∧ own searchingInvocation.words = [] ∧
        placeholders searchingInvocation.words = [] ∧
        r.convertStage searchingInvocation.stage = "ForEach-Object { grep -I $_ }" ∧
        r.convertStageAt maxDepth searchingInvocation.stage ≠ searchingInvocation.stage ∧
        wrapped searchingInvocation.words ≠ [] ∧
        separate false (own searchingInvocation.words) = true ∧
        searchingInvocation.optionValue? "-I" = some "foo".toList := by decide +kernel
  refine ⟨hinv, hown, hgiven, hconvert, fun honly => ?_⟩
  obtain ⟨hagrees, -⟩ := (ownOptionsOnly_iff_of_aligned hinv hname hchanged hwrapped
    (found_of_separate hseparate).1).mp honly
  have hcommand := hagrees _ (searchingInvocation.textOf?_of_ne_nil hwrapped)
  rw [hfound, hgiven] at hcommand
  exact hcommand.1 rfl

end Xargs

end CrossShell
