import CrossShell.Invocation

/-!
# Options as they are given

Options are given by letters: `-0r` is two of them. A letter that takes a value finds it in the rest
of its word (`-n5`) or in the next word (`-n 5`), whatever that word is. This is how a command reads
its own words.

* `readFlag`: the options of one flag.
* `readWords`: the options and operands among words, in any order.
* `ownLength`: how many words a command takes for itself in front of one that it wraps.
* `Invocation.optionIn?_eq`, `Invocation.positionalsIn_eq`: a conversion reads an option in the same
  way if the letter always stands alone.
-/

namespace CrossShell

/-- An option as it is given. -/
inductive Given where
  /-- A letter without a value. -/
  | switch (letter : Char)
  /-- A letter with its value. -/
  | setting (letter : Char) (value : Text)
  deriving DecidableEq, Repr

/-- The value that an option gives to a letter. -/
def Given.valueOf? (letter : Char) : Given → Option Text
  | switch _ => none
  | setting l value => if l = letter then some value else none

/-- The values given to a letter, in order. -/
def valuesOf (letter : Char) (gs : List Given) : List Text := gs.filterMap (Given.valueOf? letter)

/-- The options that letters give, where `valued` take a value, and the letter that still waits for
its value. -/
def readLetters (valued : List Char) : Text → List Given × Option Char
  | [] => ([], none)
  | c :: cs =>
    if c ∈ valued then if cs.isEmpty then ([], some c) else ([.setting c cs], none)
    else
      let rest := readLetters valued cs
      (.switch c :: rest.1, rest.2)

/-- The options of a flag. A long flag is none of these. -/
def readFlag (valued : List Char) (flag : Text) : List Given × Option Char :=
  if Invocation.isLong flag then ([], none) else readLetters valued flag.tail

/-- The options and the operands among words, if a letter `waiting` takes the first of them. -/
def readWords (valued : List Char) :
    (waiting : Option Char) → List TaggedToken → List Given × List Text
  | _, [] => ([], [])
  | some c, t :: ts =>
    let rest := readWords valued none ts
    (.setting c t.value :: rest.1, rest.2)
  | none, t :: ts =>
    if t.isFlag then
      let flag := readFlag valued t.value
      let rest := readWords valued flag.2 ts
      (flag.1 ++ rest.1, rest.2)
    else
      let rest := readWords valued none ts
      (rest.1, t.value :: rest.2)

/-- How many words there are in front of the first operand. -/
def ownLength (valued : List Char) : (waiting : Option Char) → List TaggedToken → Nat
  | _, [] => 0
  | some _, _ :: ts => ownLength valued none ts + 1
  | none, t :: ts => if t.isFlag then ownLength valued (readFlag valued t.value).2 ts + 1 else 0

theorem valuesOf_append (letter : Char) (gs hs : List Given) :
    valuesOf letter (gs ++ hs) = valuesOf letter gs ++ valuesOf letter hs :=
  List.filterMap_append

theorem valuesOf_switches (letter : Char) (cs : Text) :
    valuesOf letter (cs.map Given.switch) = [] := by
  simp [valuesOf, Given.valueOf?]

/-- Letters that take no value are switches. -/
theorem readLetters_of_notMem {valued : List Char} {cs : Text} (h : ∀ c ∈ cs, c ∉ valued) :
    readLetters valued cs = (cs.map .switch, none) := by
  induction cs with
  | nil => rfl
  | cons c cs ih =>
    rw [readLetters, if_neg (h c List.mem_cons_self),
      ih fun d hd => h d (List.mem_cons_of_mem _ hd)]
    rfl

theorem mem_of_readLetters {valued : List Char} {cs : Text} {c : Char}
    (h : (readLetters valued cs).2 = some c) : c ∈ valued := by
  induction cs with
  | nil => cases h
  | cons d ds ih =>
    rw [readLetters] at h
    split at h
    · split at h <;> simp_all
    · exact ih h

/-- Only a letter with a value waits for one. -/
theorem mem_of_readFlag {valued : List Char} {flag : Text} {c : Char}
    (h : (readFlag valued flag).2 = some c) : c ∈ valued := by
  unfold readFlag at h
  split at h
  · cases h
  · exact mem_of_readLetters h

/-- A flag without the letter gives it no value. -/
theorem readFlag_of_notMem {letter : Char} {flag : Text}
    (h : Invocation.isLong flag = true ∨ letter ∉ flag) :
    valuesOf letter (readFlag [letter] flag).1 = [] ∧ (readFlag [letter] flag).2 = none := by
  unfold readFlag
  split
  · exact ⟨rfl, rfl⟩
  · rename_i hlong
    have hmem := h.resolve_left hlong
    have hletters : ∀ c ∈ flag.tail, c ∉ [letter] := by
      intro c hc hletter
      rw [List.mem_singleton] at hletter
      exact hmem (hletter ▸ List.mem_of_mem_tail hc)
    rw [readLetters_of_notMem hletters]
    exact ⟨valuesOf_switches letter _, rfl⟩

/-! ## Letters that stand alone -/

/-- The flag of a letter. -/
def letterFlag (letter : Char) : Text := ['-', letter]

/-- The letter occurs in no other short flag than its own. -/
def StandsAlone (letter : Char) (words : List TaggedToken) : Prop :=
  ∀ t ∈ words, t.isFlag = true →
    t.value = letterFlag letter ∨ Invocation.isLong t.value = true ∨ letter ∉ t.value

instance (letter : Char) (words : List TaggedToken) : Decidable (StandsAlone letter words) :=
  inferInstanceAs (Decidable (∀ _ ∈ _, _))

variable {letter : Char} {words : List TaggedToken}

/-- A flag that starts with a letter with a value carries the value or waits for it. -/
theorem readFlag_letterFlag_append {valued : List Char} (hmem : letter ∈ valued) (h : letter ≠ '-')
    (rest : Text) : readFlag valued (letterFlag letter ++ rest) =
      if rest.isEmpty then ([], some letter) else ([.setting letter rest], none) := by
  simp [readFlag, letterFlag, Invocation.isLong, readLetters, h.symm, hmem]

theorem readFlag_letterFlag (h : letter ≠ '-') :
    readFlag [letter] (letterFlag letter) = ([], some letter) := by
  simpa using readFlag_letterFlag_append (List.mem_singleton_self letter) h []

namespace Invocation

/-- Operands in front do not matter to an option. -/
theorem optionIn?_append_of_operands (option : Text) {front : List TaggedToken}
    (h : ∀ w ∈ front, w.isFlag = false) (words : List TaggedToken) :
    optionIn? option (front ++ words) = optionIn? option words := by
  induction front with
  | nil => rfl
  | cons w front ih =>
    rw [List.cons_append, optionIn?, h w List.mem_cons_self]
    exact ih fun v hv => h v (List.mem_cons_of_mem _ hv)

theorem positionalsIn_append_of_operands (valued : List Text) {front : List TaggedToken}
    (h : ∀ w ∈ front, w.isFlag = false) (words : List TaggedToken) :
    positionalsIn valued false (front ++ words) =
      front.map (·.value) ++ positionalsIn valued false words := by
  induction front with
  | nil => rfl
  | cons w front ih =>
    rw [List.cons_append, positionalsIn, h w List.mem_cons_self,
      ih fun v hv => h v (List.mem_cons_of_mem _ hv)]
    rfl

theorem attachedValue?_of_notMem (hletter : letter ≠ '-') {flag : Text}
    (h : isLong flag = true ∨ letter ∉ flag) : attachedValue? (letterFlag letter) flag = none := by
  have hfront : ¬letterFlag letter <+: flag := by
    intro hfront
    rcases h with hlong | hmem
    · obtain ⟨rest, rfl⟩ := hfront
      simp [isLong, letterFlag, hletter.symm] at hlong
    · exact hmem (hfront.subset (by simp [letterFlag]))
  have hdrop : Text.dropFront? flag (letterFlag letter) = none := by
    unfold Text.dropFront?
    rw [if_neg (by simpa using hfront)]
  rw [attachedValue?, hdrop]

/-- The value of a letter that stands alone is the first one given. -/
theorem optionIn?_eq (hletter : letter ≠ '-') (h : StandsAlone letter words) :
    optionIn? (letterFlag letter) words =
      (valuesOf letter (readWords [letter] none words).1).head? := by
  induction words with
  | nil => rfl
  | cons t ts ih =>
    have hts := ih fun u hu => h u (List.mem_cons_of_mem _ hu)
    rw [optionIn?, readWords]
    cases hflag : t.isFlag with
    | false => simpa using hts
    | true =>
      by_cases hown : t.value = letterFlag letter
      · rw [hown, readFlag_letterFlag hletter]
        cases ts <;> simp [readWords, valuesOf, Given.valueOf?]
      · have hother := (h t List.mem_cons_self hflag).resolve_left hown
        obtain ⟨hvalues, hwaiting⟩ := readFlag_of_notMem hother
        simp [hown, attachedValue?_of_notMem hletter hother, hts, valuesOf_append, hvalues,
          hwaiting]

/-- The positional words are the operands, if the letter stands alone. -/
theorem positionalsIn_eq (hletter : letter ≠ '-') (h : StandsAlone letter words)
    (waiting : Option Char) :
    positionalsIn [letterFlag letter] waiting.isSome words =
      (readWords [letter] waiting words).2 := by
  induction words generalizing waiting with
  | nil => cases waiting <;> rfl
  | cons t ts ih =>
    have hts := ih fun u hu => h u (List.mem_cons_of_mem _ hu)
    cases waiting with
    | some c => exact hts none
    | none =>
      rw [Option.isSome_none, positionalsIn, readWords]
      cases hflag : t.isFlag with
      | false => simpa using hts none
      | true =>
        by_cases hown : t.value = letterFlag letter
        · have hskip := hts (some letter)
          simpa [hown, readFlag_letterFlag hletter] using hskip
        · have hother := (h t List.mem_cons_self hflag).resolve_left hown
          obtain ⟨-, hwaiting⟩ := readFlag_of_notMem hother
          have hskip := hts none
          simpa [hown, hwaiting] using hskip

end Invocation

end CrossShell
