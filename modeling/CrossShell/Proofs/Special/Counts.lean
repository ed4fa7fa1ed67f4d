import CrossShell.Proofs.Special.Selections
import CrossShell.Proofs.Stage.WordByWord

/-!
# Counts that `head` and `tail` keep

A count is stated in one of five ways, and the words are walked three times to convert it: for the
flags that are accepted, for the count and for the files. The walks do not always agree. A count at
the end of a cluster such as `-fn20` is accepted but not seen, of several counts one is taken, and
the word behind a `-n` is also a file if that `-n` is itself the value of a `-c`.

* `statedCounts`: the counts that flags state, and `seenCounts`: those that are looked for.
  `lineCount?_eq_head?`: the first of these is taken.
* `usesIn`: which words are flags, values and files. `mem_usesIn_file_iff`: when the word of a
  count is a file.
* `Selection.Carries`: a command ends in a count; `Selection.Carries.unique`: in one at most.
* `counts_kept_iff`: when no count is lost.
-/

namespace CrossShell

open Invocation (optionIn? attachedValue? isLong positionalsIn)

/-! ## Counts that are stated -/

/-- The digits that end a cluster of short flags behind an `n`. -/
def clusterCount? (flag : Text) : Option Text :=
  let digits := (flag.reverse.takeWhile Char.isDigit).reverse
  if (flag.reverse.dropWhile Char.isDigit).head? = some 'n' && !digits.isEmpty && !isLong flag then
    some digits
  else none

/-- The count that a flag states as `-n N`, `-nN`, `--lines=N`, `-N` or at the end of a cluster, if
`next` is the word behind it. -/
def statedCount? (flag : Text) (next : Option Text) : Option Text :=
  if flag = ['-', 'n'] then next
  else (Text.dropFront? flag ['-', 'n']).or <| (Text.dropFront? flag "--lines=").or <|
    (numberFlag? flag).or (clusterCount? flag)

/-- What the flags among words give, each by itself, from the flag and the word behind it. -/
def givenIn (given? : Text → Option Text → Option Text) : List TaggedToken → List Text
  | [] => []
  | t :: ts =>
    (if t.isFlag then given? t.value (ts.head?.map (·.value)) else none).toList ++ givenIn given? ts

/-- The counts that the flags of an invocation state. -/
def statedCounts (inv : Invocation) : List Text := givenIn statedCount? inv.words

theorem mem_givenIn {given? : Text → Option Text → Option Text} {words : List TaggedToken}
    {value : Text} : value ∈ givenIn given? words ↔
      ∃ front t back, words = front ++ t :: back ∧ t.isFlag = true ∧
        given? t.value (back.head?.map (·.value)) = some value := by
  induction words with
  | nil => simp [givenIn]
  | cons t ts ih =>
    have hfirst : value ∈ (if t.isFlag then given? t.value (ts.head?.map (·.value))
        else none).toList ↔ t.isFlag = true ∧
          given? t.value (ts.head?.map (·.value)) = some value := by
      cases t.isFlag <;> simp
    rw [givenIn, List.mem_append, ih, hfirst]
    constructor
    · rintro (⟨hflag, hgiven⟩ | ⟨front, u, back, rfl, hu⟩)
      · exact ⟨[], t, ts, rfl, hflag, hgiven⟩
      · exact ⟨t :: front, u, back, rfl, hu⟩
    · rintro ⟨front, u, back, heq, hu⟩
      cases front with
      | nil =>
        obtain ⟨rfl, rfl⟩ := List.cons.inj heq
        exact .inl hu
      | cons v front => exact .inr ⟨front, u, back, (List.cons.inj heq).2, hu⟩

/-! ## Counts that are seen -/

/-- The value that a flag gives to an option, if `next` is the word behind it. -/
def optionAt? (option flag : Text) (next : Option Text) : Option Text :=
  if flag = option then next else attachedValue? option flag

/-- The counts that are looked for, in this order. -/
def seenCounts (inv : Invocation) : List Text :=
  givenIn (optionAt? "-n") inv.words ++ (givenIn (optionAt? "--lines") inv.words ++
    (givenIn (optionAt? "-c") inv.words ++ givenIn (fun flag _ => numberFlag? flag) inv.words))

theorem optionIn?_eq_head? (option : Text) (words : List TaggedToken) :
    optionIn? option words = (givenIn (optionAt? option) words).head? := by
  induction words with
  | nil => rfl
  | cons t ts ih =>
    rw [optionIn?, givenIn, List.head?_append, ← ih, optionAt?]
    cases t.isFlag with
    | false => rfl
    | true =>
      by_cases hvalue : t.value = option
      · cases ts <;> simp [hvalue, optionIn?]
      · cases attachedValue? option t.value <;> simp [hvalue]

theorem findSome?_flags (words : List TaggedToken) :
    ((words.filter (·.isFlag)).map (·.value)).findSome? numberFlag? =
      (givenIn (fun flag _ => numberFlag? flag) words).head? := by
  induction words with
  | nil => rfl
  | cons t ts ih =>
    rw [givenIn, List.head?_append, ← ih]
    cases hflag : t.isFlag with
    | false => rw [List.filter_cons_of_neg (by simp [hflag])]; rfl
    | true =>
      rw [List.filter_cons_of_pos hflag, List.map_cons, List.findSome?_cons]
      cases numberFlag? t.value <;> simp

/-- The first count that is seen is taken. -/
theorem lineCount?_eq_head? (inv : Invocation) : lineCount? inv = (seenCounts inv).head? := by
  rw [lineCount?, seenCounts, List.head?_append, List.head?_append, List.head?_append,
    ← findSome?_flags, ← optionIn?_eq_head?, ← optionIn?_eq_head?, ← optionIn?_eq_head?]
  rfl

/-! ## Words that become files -/

/-- What a word is used for. -/
inductive WordUse where
  /-- A flag. -/
  | flag
  /-- The value of the flag in front of it. -/
  | value
  /-- A file. -/
  | file
  deriving DecidableEq, Repr

/-- The words with their uses, if the flags `valued` take a value and the first word is one or
not. -/
def usesIn (valued : List Text) : (skip : Bool) → List TaggedToken → List (TaggedToken × WordUse)
  | _, [] => []
  | true, t :: ts => (t, .value) :: usesIn valued false ts
  | false, t :: ts =>
    if t.isFlag then (t, .flag) :: usesIn valued (valued.contains t.value) ts
    else (t, .file) :: usesIn valued false ts

/-- Whether the word behind some words is a value. -/
def skipsNext (valued : List Text) : (skip : Bool) → List TaggedToken → Bool
  | skip, [] => skip
  | true, _ :: ts => skipsNext valued false ts
  | false, t :: ts => skipsNext valued (t.isFlag && valued.contains t.value) ts

/-- The words that are used as files. -/
def filesOf (uses : List (TaggedToken × WordUse)) : List Text :=
  (uses.filter (·.2 == .file)).map (·.1.value)

section Uses

variable {valued : List Text} {skip : Bool} {words front back : List TaggedToken}
  {flag word : TaggedToken}

theorem filesOf_usesIn : filesOf (usesIn valued skip words) = positionalsIn valued skip words := by
  induction words generalizing skip with
  | nil => cases skip <;> rfl
  | cons t ts ih =>
    cases skip with
    | true => exact ih
    | false =>
      rw [usesIn, positionalsIn]
      cases t.isFlag with
      | true => exact ih
      | false => exact congrArg (t.value :: ·) ih

theorem map_fst_usesIn : (usesIn valued skip words).map Prod.fst = words := by
  induction words generalizing skip with
  | nil => cases skip <;> rfl
  | cons t ts ih =>
    cases skip with
    | true => exact congrArg (t :: ·) ih
    | false =>
      rw [usesIn]
      cases t.isFlag with
      | true => exact congrArg (t :: ·) ih
      | false => exact congrArg (t :: ·) ih

theorem mem_of_mem_usesIn {use : WordUse} (h : (word, use) ∈ usesIn valued skip words) :
    word ∈ words := by
  rw [← @map_fst_usesIn valued skip words]
  exact List.mem_map_of_mem h

theorem usesIn_append : usesIn valued skip (front ++ back) =
    usesIn valued skip front ++ usesIn valued (skipsNext valued skip front) back := by
  induction front generalizing skip with
  | nil => cases skip <;> rfl
  | cons t front ih =>
    cases skip with
    | true => exact congrArg (_ :: ·) ih
    | false =>
      rw [List.cons_append, usesIn, usesIn, skipsNext]
      cases t.isFlag with
      | true => exact congrArg (_ :: ·) ih
      | false => exact congrArg (_ :: ·) ih

/-- Of words that are all different, one has the use that the words in front of it leave to it. -/
theorem mem_usesIn_iff (hnodup : (front ++ word :: back).Nodup) {use : WordUse} :
    (word, use) ∈ usesIn valued false (front ++ word :: back) ↔
      (word, use) ∈ usesIn valued (skipsNext valued false front) [word] := by
  obtain ⟨-, hrest, hapart⟩ := List.nodup_append.mp hnodup
  have hfront : (word, use) ∉ usesIn valued false front := fun hmem =>
    hapart word (mem_of_mem_usesIn hmem) word List.mem_cons_self rfl
  have hback (skip : Bool) : (word, use) ∉ usesIn valued skip back := fun hmem =>
    (List.nodup_cons.mp hrest).1 (mem_of_mem_usesIn hmem)
  rw [← List.singleton_append, usesIn_append, usesIn_append, List.mem_append, List.mem_append,
    or_iff_right hfront, or_iff_left (hback _)]

theorem skipsNext_concat (t : TaggedToken) : skipsNext valued skip (front ++ [t]) =
    (!skipsNext valued skip front && (t.isFlag && valued.contains t.value)) := by
  induction front generalizing skip with
  | nil => cases skip <;> rfl
  | cons u front ih => cases skip <;> exact ih

theorem skipsNext_of_notMem (h : ∀ t ∈ words, t.isFlag = true → t.value ∉ valued) :
    skipsNext valued false words = false := by
  induction words with
  | nil => rfl
  | cons t ts ih =>
    obtain ⟨ht, hts⟩ := List.forall_mem_cons.mp h
    have hnext : (t.isFlag && valued.contains t.value) = false := by
      cases hflag : t.isFlag with
      | false => rfl
      | true => simpa using ht hflag
    rw [skipsNext, hnext, ih hts]

/-- A word is a value exactly if the words in front of it leave it to be one. -/
theorem mem_usesIn_value_iff (hnodup : (front ++ word :: back).Nodup) :
    (word, .value) ∈ usesIn valued false (front ++ word :: back) ↔
      skipsNext valued false front = true := by
  rw [mem_usesIn_iff hnodup]
  cases skipsNext valued false front with
  | true => simp [usesIn]
  | false => cases hflag : word.isFlag <;> simp [usesIn, hflag]

/-- The word behind a flag that takes a value is a file exactly if the flag is itself a value. -/
theorem mem_usesIn_file_iff (hnodup : (front ++ flag :: word :: back).Nodup)
    (hflag : flag.isFlag = true) (hvalued : valued.contains flag.value = true)
    (hword : word.isFlag = false) :
    (word, .file) ∈ usesIn valued false (front ++ flag :: word :: back) ↔
      (flag, .value) ∈ usesIn valued false (front ++ flag :: word :: back) := by
  have hsplit : front ++ flag :: word :: back = front ++ [flag] ++ word :: back := by simp
  rw [mem_usesIn_value_iff hnodup, hsplit, mem_usesIn_iff (hsplit ▸ hnodup), skipsNext_concat,
    hflag, hvalued]
  cases skipsNext valued false front with
  | true => simp [usesIn, hword]
  | false => simp [usesIn]

end Uses

/-! ## The word of the count -/

/-- The flag and the word behind it that give an option its value, unless a flag carries it. -/
def optionPair? (option : Text) : List TaggedToken → Option (TaggedToken × TaggedToken)
  | [] => none
  | t :: ts =>
    if !t.isFlag then optionPair? option ts
    else if t.value = option then ts.head?.map (t, ·)
    else if (attachedValue? option t.value).isSome then none
    else optionPair? option ts

/-- The flag and the word behind it that give the count which is taken. -/
def countPair? (inv : Invocation) : Option (TaggedToken × TaggedToken) :=
  if (inv.optionValue? "-n").isSome then optionPair? "-n" inv.words
  else if (inv.optionValue? "--lines").isSome then optionPair? "--lines" inv.words
  else optionPair? "-c" inv.words

/-- The word is what the option is given. -/
theorem optionIn?_of_optionPair? {option : Text} {words : List TaggedToken}
    {flag word : TaggedToken} (h : optionPair? option words = some (flag, word)) :
    optionIn? option words = some word.value := by
  fun_induction optionPair? option words with
  | case1 => cases h
  | case2 t ts hflag ih => rw [optionIn?, if_pos hflag, ih h]
  | case3 t ts hflag hvalue =>
    obtain ⟨w, hhead, heq⟩ := Option.map_eq_some_iff.mp h
    obtain ⟨-, rfl⟩ := Prod.mk.inj heq
    rw [optionIn?, if_neg hflag, if_pos hvalue, hhead]
    rfl
  | case4 => cases h
  | case5 t ts hflag hvalue hattached ih =>
    have hnone : attachedValue? option t.value = none := by simpa using hattached
    rw [optionIn?, if_neg hflag, if_neg hvalue, hnone, ih h]
    rfl

/-- The flag is the first that is the option, and the word stands behind it. -/
theorem exists_of_optionPair? {option : Text} {words : List TaggedToken} {flag word : TaggedToken}
    (h : optionPair? option words = some (flag, word)) : flag.isFlag = true ∧ flag.value = option ∧
      ∃ front back, words = front ++ flag :: word :: back ∧
        ∀ t ∈ front, t.isFlag = true → t.value ≠ option := by
  fun_induction optionPair? option words with
  | case1 => cases h
  | case2 t ts hflag ih =>
    obtain ⟨hpair, hvalue, front, back, rfl, hfront⟩ := ih h
    refine ⟨hpair, hvalue, t :: front, back, rfl, List.forall_mem_cons.mpr ⟨?_, hfront⟩⟩
    intro ht
    simp [ht] at hflag
  | case3 t ts hflag hvalue =>
    obtain ⟨w, hhead, heq⟩ := Option.map_eq_some_iff.mp h
    obtain ⟨rfl, rfl⟩ := Prod.mk.inj heq
    obtain ⟨back, rfl⟩ := List.head?_eq_some_iff.mp hhead
    exact ⟨by simpa using hflag, hvalue, [], back, rfl, by simp⟩
  | case4 => cases h
  | case5 t ts hflag hvalue hattached ih =>
    obtain ⟨hpair, hvalue', front, back, rfl, hfront⟩ := ih h
    exact ⟨hpair, hvalue', t :: front, back, rfl,
      List.forall_mem_cons.mpr ⟨fun _ => hvalue, hfront⟩⟩

theorem exists_of_countPair? {inv : Invocation} {flag word : TaggedToken}
    (h : countPair? inv = some (flag, word)) : ∃ option ∈ ["-n".toList, "--lines", "-c"],
      optionPair? option inv.words = some (flag, word) ∧ lineCount? inv = some word.value := by
  have hread {option : Text} (h : optionPair? option inv.words = some (flag, word)) :
      inv.optionValue? option = some word.value := optionIn?_of_optionPair? h
  unfold countPair? at h
  unfold lineCount?
  split at h
  · exact ⟨_, by simp, h, by rw [hread h]; rfl⟩
  · rename_i hn
    have hn : inv.optionValue? "-n" = none := by simpa using hn
    rw [hn]
    split at h
    · exact ⟨_, by simp, h, by rw [hread h]; rfl⟩
    · rename_i hlines
      have hlines : inv.optionValue? "--lines" = none := by simpa using hlines
      exact ⟨_, by simp, h, by rw [hlines, hread h]; rfl⟩

/-! ## Flags of a stage -/

theorem Invocation.value_mem_flags {inv : Invocation} {t : TaggedToken} (h : t ∈ inv.words)
    (hflag : t.isFlag = true) : t.value ∈ inv.flags :=
  List.mem_map_of_mem (List.mem_filter.mpr ⟨h, hflag⟩)

theorem Token.isFlagShaped_of_role {due : Bool} {t : Token} (h : (t.role due).1 = .flag) :
    t.isFlagShaped = true := by
  unfold role at h
  split at h
  · cases h
  split at h
  · cases h
  split at h
  · cases h
  split at h
  · assumption
  · cases h

theorem isFlagShaped_of_mem_tagRolesFrom {due : Bool} {ts : List Token} {t : TaggedToken}
    (h : t ∈ tagRolesFrom due ts) (hflag : t.isFlag = true) : t.token.isFlagShaped = true := by
  induction ts generalizing due with
  | nil => cases h
  | cons u ts ih =>
    rcases List.mem_cons.mp h with rfl | h
    · exact Token.isFlagShaped_of_role (beq_iff_eq.mp hflag)
    · exact ih h

/-- A flag of a stage starts with a dash. -/
theorem head?_of_isFlag {stage : Text} {inv : Invocation} {t : TaggedToken}
    (hinv : Invocation.ofTagged? stage (tagStage stage) = some inv) (h : t ∈ inv.words)
    (hflag : t.isFlag = true) : t.value.head? = some '-' := by
  have hshape := isFlagShaped_of_mem_tagRolesFrom (Invocation.words_subset hinv h) hflag
  simp only [Token.isFlagShaped, Bool.and_eq_true, beq_iff_eq] at hshape
  exact hshape.2

/-! ## Counts that a command carries -/

theorem Text.append_cons_inj {sep : Char} {a b c d : Text} (hb : sep ∉ b) (hd : sep ∉ d)
    (h : a ++ sep :: b = c ++ sep :: d) : a = c ∧ b = d := by
  have hnotMem {e x y : Text} (hx : sep ∉ x) (hsplit : sep :: x = e ++ sep :: y) : e = [] := by
    cases e with
    | nil => rfl
    | cons _ e =>
      rw [List.cons_append] at hsplit
      exact absurd (by simp [(List.cons.inj hsplit).2]) hx
  rcases List.append_eq_append_iff.mp h with ⟨e, rfl, he⟩ | ⟨e, rfl, he⟩
  · obtain rfl := hnotMem hb he
    exact ⟨(List.append_nil _).symm, (List.cons.inj he).2⟩
  · obtain rfl := hnotMem hd he
    exact ⟨List.append_nil _, (List.cons.inj he).2.symm⟩

namespace Selection

/-- The switches that select so. The last lines of a file that is followed have one of their own. -/
def switches : Selection → List Text
  | last n => [(last n).switch, "-Tail"]
  | s => [s.switch]

/-- A command ends in a switch and its value. -/
def Carries (s : Selection) (body : Text) : Prop :=
  ∃ front, ∃ switch ∈ s.switches, body = front ++ ' ' :: (switch ++ ' ' :: s.value)

/-- The usual switch in the place of the one for a file that is followed. -/
def usualSwitch (switch : Text) : Text := if switch = "-Tail" then "-Last" else switch

theorem of_mem_switches {s : Selection} {switch : Text} (h : switch ∈ s.switches) :
    ' ' ∉ switch ∧ usualSwitch switch = s.switch := by
  cases s with
  | last n =>
    rcases List.mem_cons.mp h with rfl | h
    · exact ⟨notMem_switch _, rfl⟩
    · obtain rfl := List.mem_singleton.mp h
      exact ⟨by decide, rfl⟩
  | _ =>
    obtain rfl := List.mem_singleton.mp h
    exact ⟨notMem_switch _, rfl⟩

/-- A command ends in one selection at most. -/
theorem Carries.unique {s t : Selection} {body : Text} (hs : s.Carries body) (ht : t.Carries body) :
    s = t := by
  obtain ⟨front, switch, hswitch, rfl⟩ := hs
  obtain ⟨front', switch', hswitch', heq⟩ := ht
  obtain ⟨hspace, husual⟩ := of_mem_switches hswitch
  obtain ⟨hspace', husual'⟩ := of_mem_switches hswitch'
  rw [← List.cons_append, ← List.append_assoc, ← List.cons_append, ← List.append_assoc] at heq
  obtain ⟨hfront, hvalue⟩ := Text.append_cons_inj s.notMem_value t.notMem_value heq
  obtain ⟨-, rfl⟩ := Text.append_cons_inj hspace hspace' hfront
  have hread := readSwitch?_value s
  rw [hvalue, ← husual, husual', readSwitch?_value t] at hread
  exact (Option.some.inj hread).symm

theorem carries_append (s : Selection) (front : Text) : s.Carries (front ++ s.text) := by
  have hswitch : s.switch ∈ s.switches := by cases s <;> exact List.mem_cons_self
  refine ⟨front ++ "Select-Object".toList, s.switch, hswitch, ?_⟩
  rw [s.text_eq, List.append_assoc]

theorem carries_withInput (s : Selection) (files : List Text) :
    s.Carries (withInput files s.text) := by
  unfold withInput
  split
  · exact carries_append s []
  · exact carries_append s _

/-- A file that is followed without a count carries none. -/
theorem not_carries_wait (s : Selection) (file : Text) :
    ¬s.Carries ("Get-Content " ++ file ++ " -Wait") := by
  rintro ⟨front, switch, -, heq⟩
  have hdash : '-' ∉ s.value := by
    have hdigits (n : Nat) : '-' ∉ Text.ofNat n := (Numeral.ofNat n).notMem_digits rfl
    cases s <;> simp [value, hdigits]
  have hwait : " -Wait".toList = ' ' :: "-Wait".toList := rfl
  rw [hwait, ← List.cons_append, ← List.append_assoc] at heq
  obtain ⟨-, hvalue⟩ := Text.append_cons_inj (by decide) s.notMem_value heq
  rw [← hvalue] at hdash
  exact hdash (by decide)

/-- The count behind a file that is followed. -/
def followed : Selection → Text
  | last n => " -Tail " ++ Text.ofNat n
  | s => " | " ++ s.text

theorem carries_followed (s : Selection) (front : Text) : s.Carries (front ++ s.followed) := by
  have hpipe (s : Selection) : s.Carries (front ++ (" | ".toList ++ s.text)) := by
    rw [← List.append_assoc]
    exact carries_append s _
  cases s with
  | last n => exact ⟨front, "-Tail".toList, List.mem_cons_of_mem _ List.mem_cons_self, rfl⟩
  | _ => exact hpipe _

end Selection

theorem followFile?_some (file count : Text) : followFile? file (some count) =
    (tailSelection? count).map fun s => "Get-Content " ++ file ++ " -Wait" ++ s.followed := by
  have hassoc {a b c d t : Text} (h : t = b ++ c) : a ++ t ++ d = a ++ b ++ (c ++ d) := by
    rw [h, List.append_assoc, List.append_assoc, List.append_assoc]
  have htail : " -Wait -Tail ".toList = " -Wait".toList ++ " -Tail ".toList := rfl
  have hpipe : " -Wait | ".toList = " -Wait".toList ++ " | ".toList := rfl
  rw [followFile?]
  cases tailSelection? count with
  | none => rfl
  | some s =>
    cases s with
    | last n => exact congrArg some (hassoc htail)
    | _ => exact congrArg some (hassoc hpipe)

/-! ## Stages -/

/-- The lines that a count of `head` or `tail` selects. -/
def countSelection? (name count : Text) : Option Selection :=
  if name = "head" then (Text.toNat64? count).map .first else tailSelection? count

theorem countSelection?_of_tail {name : Text} (h : name = "tail") (count : Text) :
    countSelection? name count = tailSelection? count :=
  if_neg (by rw [h]; decide)

/-- A command reads the lines of some files: through a pipe, or one file that is followed. -/
inductive ReadsFiles : List Text → Text → Prop where
  | piped (files : List Text) (s : Selection) : ReadsFiles files (withInput files s.text)
  | followed (file rest : Text) : ReadsFiles [file] ("Get-Content " ++ file ++ " -Wait" ++ rest)

/-- What the words of a `head` or `tail` are used for. -/
def wordUses (inv : Invocation) : List (TaggedToken × WordUse) :=
  usesIn ["-n", "-c"] false inv.words

/-- Every count that is stated is carried, and the word of the count is no file. -/
structure CountsKept (inv : Invocation) (body : Text) : Prop where
  carried : ∀ count ∈ statedCounts inv,
    ∃ s, countSelection? inv.name count = some s ∧ s.Carries body
  not_file : ∀ pair ∈ countPair? inv, (pair.2, .file) ∉ wordUses inv

/-- A body carries the count that is taken, or none if none is taken. -/
def CarriesTaken (inv : Invocation) (body : Text) : Prop :=
  match lineCount? inv with
  | some count => ∃ s, countSelection? inv.name count = some s ∧ s.Carries body
  | none => ∀ s : Selection, ¬s.Carries body

section

variable {inv : Invocation} {text : Text}

theorem exists_body_of_convertHead? (hname : inv.name = "head") (h : convertHead? inv = some text) :
    ∃ body, text = inv.finish body ∧ ReadsFiles (inv.positionals ["-n", "-c"]) body ∧
      CarriesTaken inv body := by
  simp only [convertHead?, Option.bind_eq_bind, Option.bind_eq_some_iff, Option.pure_def,
    Option.some.injEq] at h
  obtain ⟨count, hcount, n, hn, rfl⟩ := h
  refine ⟨_, rfl, .piped _ _, ?_⟩
  rw [CarriesTaken, hcount]
  refine ⟨.first n, ?_, Selection.carries_withInput ..⟩
  rw [countSelection?, if_pos hname, hn]
  rfl

theorem of_followFile? {file body : Text} (hname : inv.name = "tail")
    (h : followFile? file (lineCount? inv) = some body) :
    ReadsFiles [file] body ∧ CarriesTaken inv body := by
  unfold CarriesTaken
  cases hcount : lineCount? inv with
  | none =>
    rw [hcount] at h
    obtain rfl := Option.some.inj h
    refine ⟨?_, fun s => s.not_carries_wait file⟩
    have hread := ReadsFiles.followed file []
    rwa [List.append_nil] at hread
  | some count =>
    rw [hcount, followFile?_some] at h
    obtain ⟨s, hs, rfl⟩ := Option.map_eq_some_iff.mp h
    exact ⟨.followed file _, s, (countSelection?_of_tail hname count).trans hs,
      s.carries_followed _⟩

theorem exists_body_of_convertTail? (hname : inv.name = "tail") (h : convertTail? inv = some text) :
    ∃ body, text = inv.finish body ∧ ReadsFiles (inv.positionals ["-n", "-c"]) body ∧
      CarriesTaken inv body := by
  unfold convertTail? at h
  dsimp only at h
  split at h
  · split at h
    · rename_i file hfiles
      obtain ⟨body, hbody, rfl⟩ := Option.map_eq_some_iff.mp h
      exact ⟨body, rfl, hfiles ▸ of_followFile? hname hbody⟩
    · cases h
  · simp only [Option.bind_eq_bind, Option.bind_eq_some_iff, Option.pure_def,
      Option.some.injEq] at h
    obtain ⟨count, hcount, s, hs, rfl⟩ := h
    refine ⟨_, rfl, .piped _ _, ?_⟩
    rw [CarriesTaken, hcount]
    exact ⟨s, (countSelection?_of_tail hname count).trans hs, Selection.carries_withInput ..⟩

/-- A count is carried exactly if it selects the same as the one that is taken. -/
theorem CarriesTaken.iff {body : Text} (h : CarriesTaken inv body) (count : Text) :
    (∃ s, countSelection? inv.name count = some s ∧ s.Carries body) ↔
      ∃ seen, (seenCounts inv).head? = some seen ∧
        countSelection? inv.name count = countSelection? inv.name seen := by
  unfold CarriesTaken at h
  rw [← lineCount?_eq_head?]
  cases hcount : lineCount? inv with
  | none =>
    rw [hcount] at h
    constructor
    · rintro ⟨s, -, hs⟩
      exact absurd hs (h s)
    · rintro ⟨_, hseen, -⟩
      cases hseen
  | some seen =>
    rw [hcount] at h
    obtain ⟨t, ht, hcarries⟩ := h
    constructor
    · rintro ⟨s, hs, hcarried⟩
      obtain rfl := hcarried.unique hcarries
      exact ⟨seen, rfl, hs.trans ht.symm⟩
    · rintro ⟨_, hseen, hsame⟩
      obtain rfl := Option.some.inj hseen
      exact ⟨t, hsame.trans ht, hcarries⟩

theorem head?_of_countSelection? {name count : Text} {s : Selection}
    (h : countSelection? name count = some s) : count.head? ≠ some '-' := by
  intro hdash
  obtain ⟨rest, rfl⟩ := List.head?_eq_some_iff.mp hdash
  unfold countSelection? at h
  split at h <;> cases h

end

/-! ## Counts that are stated and seen -/

section

variable {flag : Text}

theorem attachedValue?_lines (flag : Text) :
    attachedValue? "--lines" flag = Text.dropFront? flag "--lines=" := by
  have hoption : "--lines=".toList = "--lines".toList ++ ['='] := rfl
  ext value
  rw [Text.dropFront?_eq_some_iff, hoption, List.append_assoc, attachedValue?]
  cases hfront : Text.dropFront? flag "--lines" with
  | none =>
    refine iff_of_false (by simp) fun hflag => ?_
    rw [hflag, Text.dropFront?_append] at hfront
    cases hfront
  | some rest =>
    rw [Text.dropFront?_eq_some_iff.mp hfront, List.append_cancel_left_eq]
    exact Text.dropFront?_eq_some_iff

theorem attachedValue?_n (h : flag ≠ ['-', 'n']) :
    attachedValue? ['-', 'n'] flag = Text.dropFront? flag ['-', 'n'] := by
  rw [attachedValue?]
  cases hfront : Text.dropFront? flag ['-', 'n'] with
  | none => rfl
  | some rest =>
    have hrest : rest ≠ [] := by
      rintro rfl
      exact h (Text.dropFront?_eq_some_iff.mp hfront)
    have hempty : rest.isEmpty = false := by simpa using hrest
    exact if_pos (by rw [hempty]; rfl)

/-- A count of the flag is seen where it is stated: no other letter stands in front of its `n`, and
it is no `-c`. -/
def ShowsCount (flag : Text) : Prop :=
  ['-', 'n'] <+: flag ∨ clusterCount? flag = none ∧ ¬['-', 'c'] <+: flag

/-- What such a flag states is seen, and nothing else. -/
theorem statedCount?_eq_some_iff (h : ShowsCount flag) (hlines : flag ≠ "--lines".toList)
    (next : Option Text) (count : Text) :
    statedCount? flag next = some count ↔ optionAt? "-n" flag next = some count ∨
      optionAt? "--lines" flag next = some count ∨ optionAt? "-c" flag next = some count ∨
      numberFlag? flag = some count := by
  have hatLines : optionAt? "--lines" flag next = Text.dropFront? flag "--lines=" := by
    rw [optionAt?, if_neg hlines, attachedValue?_lines]
  rw [hatLines, statedCount?]
  by_cases hn : flag = ['-', 'n']
  · subst hn
    have hatN : optionAt? "-n" ['-', 'n'] next = next := if_pos rfl
    have hlong : Text.dropFront? ['-', 'n'] "--lines=" = none := rfl
    have hatC : optionAt? "-c" ['-', 'n'] next = none := rfl
    have hnumber : numberFlag? ['-', 'n'] = none := rfl
    rw [if_pos rfl, hatN, hlong, hatC, hnumber]
    simp
  have hatN : optionAt? "-n" flag next = Text.dropFront? flag ['-', 'n'] :=
    (if_neg hn).trans (attachedValue?_n hn)
  rw [hatN, if_neg hn]
  cases hfront : Text.dropFront? flag ['-', 'n'] with
  | some rest =>
    obtain rfl : flag = '-' :: 'n' :: rest := Text.dropFront?_eq_some_iff.mp hfront
    have hlong : Text.dropFront? ('-' :: 'n' :: rest) "--lines=" = none := rfl
    have hatC : optionAt? "-c" ('-' :: 'n' :: rest) next = none := rfl
    have hnumber : numberFlag? ('-' :: 'n' :: rest) = none := rfl
    rw [hlong, hatC, hnumber]
    simp
  | none =>
    have hnot : ¬['-', 'n'] <+: flag := by
      rintro ⟨rest, rfl⟩
      rw [Text.dropFront?_append] at hfront
      cases hfront
    obtain ⟨hcluster, hc⟩ := h.resolve_left hnot
    have hatC : optionAt? "-c" flag next = none := by
      have hdrop : Text.dropFront? flag "-c" = none := by
        cases hdrop : Text.dropFront? flag "-c" with
        | none => rfl
        | some rest => exact absurd ⟨rest, (Text.dropFront?_eq_some_iff.mp hdrop).symm⟩ hc
      have hne : flag ≠ "-c".toList := fun heq => hc (heq ▸ List.prefix_refl _)
      rw [optionAt?, if_neg hne, attachedValue?, hdrop]
    rw [hatC, hcluster]
    cases hlong : Text.dropFront? flag "--lines=" with
    | none => simp
    | some value =>
      have hnumber : numberFlag? flag = none := by
        rw [Text.dropFront?_eq_some_iff.mp hlong]
        rfl
      rw [hnumber]
      simp

variable {inv : Invocation}

/-- If all flags are such, the counts that are stated are those that are seen. -/
theorem mem_statedCounts_iff (h : ∀ flag ∈ inv.flags, ShowsCount flag)
    (hlines : "--lines".toList ∉ inv.flags) :
    ∀ count, count ∈ statedCounts inv ↔ count ∈ seenCounts inv := by
  intro count
  have hflags {front back : List TaggedToken} {t : TaggedToken}
      (hwords : inv.words = front ++ t :: back) (ht : t.isFlag = true) : t.value ∈ inv.flags :=
    Invocation.value_mem_flags (by rw [hwords]; simp) ht
  have hiff {front back : List TaggedToken} {t : TaggedToken}
      (hwords : inv.words = front ++ t :: back) (ht : t.isFlag = true) :=
    statedCount?_eq_some_iff (h _ (hflags hwords ht))
      (fun heq => hlines (heq ▸ hflags hwords ht)) (back.head?.map (·.value)) count
  simp only [statedCounts, seenCounts, List.mem_append, mem_givenIn]
  constructor
  · rintro ⟨front, t, back, hwords, ht, hstated⟩
    rcases (hiff hwords ht).mp hstated with hseen | hseen | hseen | hseen
    · exact .inl ⟨front, t, back, hwords, ht, hseen⟩
    · exact .inr (.inl ⟨front, t, back, hwords, ht, hseen⟩)
    · exact .inr (.inr (.inl ⟨front, t, back, hwords, ht, hseen⟩))
    · exact .inr (.inr (.inr ⟨front, t, back, hwords, ht, hseen⟩))
  · rintro (⟨front, t, back, hwords, ht, hseen⟩ | ⟨front, t, back, hwords, ht, hseen⟩ |
      ⟨front, t, back, hwords, ht, hseen⟩ | ⟨front, t, back, hwords, ht, hseen⟩)
    · exact ⟨front, t, back, hwords, ht, (hiff hwords ht).mpr (.inl hseen)⟩
    · exact ⟨front, t, back, hwords, ht, (hiff hwords ht).mpr (.inr (.inl hseen))⟩
    · exact ⟨front, t, back, hwords, ht, (hiff hwords ht).mpr (.inr (.inr (.inl hseen)))⟩
    · exact ⟨front, t, back, hwords, ht, (hiff hwords ht).mpr (.inr (.inr (.inr hseen)))⟩

end

/-! ## Changed stages -/

section

variable {r : StageConverter} {depth : Nat} {stage : Text} {inv : Invocation}

/-- The only long flag that is accepted carries its value. -/
theorem lines_notMem_flags (hinv : Invocation.ofTagged? stage (tagStage stage) = some inv)
    (hname : inv.name = "head" ∨ inv.name = "tail")
    (hchanged : r.convertStageAt depth stage ≠ stage) :
    "--lines".toList ∉ inv.flags := by
  have hsupported : Supported r.rules inv := by
    by_contra hnot
    exact hchanged (StageConverter.convertStageAt_of_not_supported hinv hnot depth)
  have hrules : ∀ s ∈ [Special.head, .tail],
      s.scope = .whole ∧ s.acceptsFlag "--lines" = false := by decide +kernel
  obtain ⟨s, hs, hspecial⟩ : ∃ s ∈ [Special.head, .tail], Special.ofName? inv.name = some s := by
    rcases hname with hname | hname <;> rw [hname] <;> decide +kernel
  obtain ⟨hscope, hlines⟩ := hrules s hs
  rcases hsupported with ⟨s', hs', haccepts⟩ | ⟨hnone, -⟩
  · obtain rfl : s = s' := Option.some.inj (hspecial.symm.trans hs')
    intro hmem
    have haccepted := haccepts "--lines" (by rw [Special.ownFlags, hscope]; exact hmem)
    rw [hlines] at haccepted
    cases haccepted
  · rw [hspecial] at hnone
    cases hnone

theorem exists_body (hinv : Invocation.ofTagged? stage (tagStage stage) = some inv)
    (hname : inv.name = "head" ∨ inv.name = "tail")
    (hchanged : r.convertStageAt depth stage ≠ stage) :
    ∃ body, r.convertStageAt depth stage = inv.finish body ∧
      ReadsFiles (filesOf (wordUses inv)) body ∧ CarriesTaken inv body := by
  rw [wordUses, filesOf_usesIn]
  rcases hname with hname | hname
  · have hspecial : Special.ofName? inv.name = some .head := by
      rw [hname]
      decide
    exact exists_body_of_convertHead? hname
      (StageConverter.counterpart?_of_changed hinv hspecial hchanged)
  · have hspecial : Special.ofName? inv.name = some .tail := by
      rw [hname]
      decide
    exact exists_body_of_convertTail? hname
      (StageConverter.counterpart?_of_changed hinv hspecial hchanged)

/-- The word of the count that is taken, with the flag in front of it. -/
theorem exists_split_of_countPair? (hlines : "--lines".toList ∉ inv.flags)
    {flag word : TaggedToken} (h : countPair? inv = some (flag, word)) :
    flag.isFlag = true ∧ flag.value ∈ ["-n".toList, "-c"] ∧ flag.value ∈ inv.flags ∧
      ∃ front back, inv.words = front ++ flag :: word :: back ∧
        ∀ t ∈ front, t.isFlag = true → t.value ≠ flag.value := by
  obtain ⟨option, hoption, hpair, -⟩ := exists_of_countPair? h
  obtain ⟨hflag, rfl, front, back, hwords, hfront⟩ := exists_of_optionPair? hpair
  have hmem : flag.value ∈ inv.flags := Invocation.value_mem_flags (by rw [hwords]; simp) hflag
  refine ⟨hflag, ?_, hmem, front, back, hwords, hfront⟩
  rcases List.mem_cons.mp hoption with hn | hoption
  · exact hn ▸ List.mem_cons_self
  rcases List.mem_cons.mp hoption with heq | hc
  · exact absurd (heq ▸ hmem) hlines
  · exact List.mem_cons_of_mem _ hc

theorem file_mem_wordUses_iff (hinv : Invocation.ofTagged? stage (tagStage stage) = some inv)
    (hlines : "--lines".toList ∉ inv.flags) {body : Text} (htaken : CarriesTaken inv body) :
    ∀ pair ∈ countPair? inv,
      (pair.2, .file) ∈ wordUses inv ↔ (pair.1, .value) ∈ wordUses inv := by
  rintro ⟨flag, word⟩ hpair
  obtain ⟨hflag, hvalued, -, front, back, hwords, -⟩ := exists_split_of_countPair? hlines hpair
  have hword : word.isFlag = false := by
    obtain ⟨option, -, -, hcount⟩ := exists_of_countPair? hpair
    rw [CarriesTaken, hcount] at htaken
    obtain ⟨s, hs, -⟩ := htaken
    by_contra hnot
    exact head?_of_countSelection? hs
      (head?_of_isFlag hinv (by rw [hwords]; simp) (by simpa using hnot))
  have hnodup := Invocation.words_nodup hinv
  rw [hwords] at hnodup
  rw [wordUses, hwords]
  exact mem_usesIn_file_iff hnodup hflag (List.contains_iff_mem.mpr hvalued) hword

theorem value_notMem_wordUses (hinv : Invocation.ofTagged? stage (tagStage stage) = some inv)
    (hlines : "--lines".toList ∉ inv.flags) (hshows : ∀ flag ∈ inv.flags, ShowsCount flag) :
    ∀ pair ∈ countPair? inv, (pair.1, .value) ∉ wordUses inv := by
  rintro ⟨flag, word⟩ hpair
  obtain ⟨hflag, hvalued, hmem, front, back, hwords, hfront⟩ :=
    exists_split_of_countPair? hlines hpair
  have hc : "-c".toList ∉ inv.flags := fun hmem => by
    rcases hshows _ hmem with hn | ⟨-, hc⟩
    · exact absurd hn (by decide)
    · exact hc (List.prefix_refl _)
  have hn : flag.value = "-n".toList := by
    rcases List.mem_cons.mp hvalued with hn | hvalue
    · exact hn
    · exact absurd (List.mem_singleton.mp hvalue ▸ hmem) hc
  have hskip : skipsNext ["-n", "-c"] false front = false := by
    refine skipsNext_of_notMem fun t ht hflagged hvalue => ?_
    rcases List.mem_cons.mp hvalue with hvalue | hvalue
    · exact hfront t ht hflagged (hvalue.trans hn.symm)
    · refine hc (List.mem_singleton.mp hvalue ▸ ?_)
      exact Invocation.value_mem_flags (by rw [hwords]; simp [ht]) hflagged
  have hnodup := Invocation.words_nodup hinv
  rw [hwords] at hnodup
  rw [wordUses, hwords, mem_usesIn_value_iff hnodup, hskip]
  exact Bool.false_ne_true

end

/-- **Counts.** For every table, every target and every `head` or `tail` that is changed: all counts
that its flags state are carried and the word of the count is no file exactly if every count that is
stated selects the same lines as the one that is taken, which is the first of those given with `-n`,
`--lines`, `-c` or as a number, in this order, and the flag in front of the word is not itself
skipped as a value. This holds if no flag is a `-c` or a cluster that ends in a count, and all
counts that are stated select the same lines. -/
theorem counts_kept_iff (r : StageConverter) (depth : Nat) {stage : Text} {inv : Invocation}
    (hinv : Invocation.ofTagged? stage (tagStage stage) = some inv)
    (hname : inv.name = "head" ∨ inv.name = "tail")
    (hchanged : r.convertStageAt depth stage ≠ stage) :
    ∃ body, r.convertStageAt depth stage = inv.finish body ∧
      ReadsFiles (filesOf (wordUses inv)) body ∧
      (CountsKept inv body ↔
        (∀ count ∈ statedCounts inv, ∃ seen, (seenCounts inv).head? = some seen ∧
          countSelection? inv.name count = countSelection? inv.name seen) ∧
        ∀ pair ∈ countPair? inv, (pair.1, .value) ∉ wordUses inv) ∧
      ((∀ flag ∈ inv.flags, ShowsCount flag) →
        (∀ count ∈ statedCounts inv, ∀ other ∈ statedCounts inv,
          countSelection? inv.name count = countSelection? inv.name other) →
        CountsKept inv body) := by
  obtain ⟨body, hbody, hreads, htaken⟩ := exists_body hinv hname hchanged
  have hlines := lines_notMem_flags hinv hname hchanged
  have hfiles := file_mem_wordUses_iff hinv hlines htaken
  have hkept : CountsKept inv body ↔
      (∀ count ∈ statedCounts inv, ∃ seen, (seenCounts inv).head? = some seen ∧
        countSelection? inv.name count = countSelection? inv.name seen) ∧
      ∀ pair ∈ countPair? inv, (pair.1, .value) ∉ wordUses inv := by
    constructor
    · rintro ⟨hcarried, hnot⟩
      exact ⟨fun count hcount => (htaken.iff count).mp (hcarried count hcount),
        fun pair hpair => mt (hfiles pair hpair).mpr (hnot pair hpair)⟩
    · rintro ⟨hseen, hnot⟩
      exact ⟨fun count hcount => (htaken.iff count).mpr (hseen count hcount),
        fun pair hpair => mt (hfiles pair hpair).mp (hnot pair hpair)⟩
  refine ⟨body, hbody, hreads, hkept, fun hshows hsame => hkept.mpr ⟨fun count hcount => ?_, ?_⟩⟩
  · have hiff := mem_statedCounts_iff hshows hlines
    obtain ⟨seen, hseen⟩ : ∃ seen, (seenCounts inv).head? = some seen :=
      Option.isSome_iff_exists.mp (List.isSome_head?.mpr
        (List.ne_nil_of_mem ((hiff count).mp hcount)))
    exact ⟨seen, hseen, hsame count hcount seen ((hiff seen).mpr (List.mem_of_mem_head? hseen))⟩
  · exact value_notMem_wordUses hinv hlines hshows

/-- A file that is followed from a line on which is given twice. -/
def followInvocation : Invocation :=
  ⟨"tail", "tail -q --lines=+5 -n +05 -f log > out",
    [⟨⟨"-q", 5, 7, none⟩, .flag⟩, ⟨⟨"--lines=+5", 8, 18, none⟩, .flag⟩,
      ⟨⟨"-n", 19, 21, none⟩, .flag⟩, ⟨⟨"+05", 22, 25, none⟩, .argument⟩,
      ⟨⟨"-f", 26, 28, none⟩, .flag⟩, ⟨⟨"log", 29, 32, none⟩, .argument⟩],
    [">", "out"]⟩

/-- Both counts of this stage are kept, since they mean the same. -/
theorem counts_kept_followed :
    let r : StageConverter := ⟨.builtin, .powerShell (some 7)⟩
    Invocation.ofTagged? followInvocation.stage (tagStage followInvocation.stage) =
        some followInvocation ∧
      statedCounts followInvocation = ["+5".toList, "+05".toList] ∧
      CountsKept followInvocation "Get-Content log -Wait | Select-Object -Skip 4" ∧
      r.convertStageAt 8 followInvocation.stage =
        "Get-Content log -Wait | Select-Object -Skip 4 > out" := by
  intro r
  obtain ⟨hinv, hname, hchanged, hstated, hfinish, htext, hsame, hshows⟩ :
      Invocation.ofTagged? followInvocation.stage (tagStage followInvocation.stage) =
          some followInvocation ∧
        followInvocation.name = "tail" ∧
        r.convertStageAt 8 followInvocation.stage ≠ followInvocation.stage ∧
        statedCounts followInvocation = ["+5".toList, "+05".toList] ∧
        r.convertStageAt 8 followInvocation.stage =
          followInvocation.finish "Get-Content log -Wait | Select-Object -Skip 4" ∧
        r.convertStageAt 8 followInvocation.stage =
          "Get-Content log -Wait | Select-Object -Skip 4 > out" ∧
        (∀ count ∈ statedCounts followInvocation, ∀ other ∈ statedCounts followInvocation,
          countSelection? followInvocation.name count =
            countSelection? followInvocation.name other) ∧
        ∀ flag ∈ followInvocation.flags,
          clusterCount? flag = none ∧ ¬['-', 'c'] <+: flag := by decide +kernel
  obtain ⟨body, hbody, -, -, hkept⟩ := counts_kept_iff r 8 hinv (.inr hname) hchanged
  obtain rfl := followInvocation.finish_injective (hfinish.symm.trans hbody)
  exact ⟨hinv, hstated, hkept (fun flag hflag => .inr (hshows flag hflag)) hsame, htext⟩

/-- A file that is followed, with a count at the end of the cluster. -/
def clusterInvocation : Invocation :=
  ⟨"tail", "tail -fn20 log",
    [⟨⟨"-fn20", 5, 10, none⟩, .flag⟩, ⟨⟨"log", 11, 14, none⟩, .argument⟩], []⟩

/-- **A lost count.** The cluster of this stage is accepted and its `f` is seen, but its count is
not. -/
theorem cluster_count_lost :
    let r : StageConverter := ⟨.builtin, .powerShell (some 7)⟩
    Invocation.ofTagged? clusterInvocation.stage (tagStage clusterInvocation.stage) =
        some clusterInvocation ∧
      statedCounts clusterInvocation = ["20".toList] ∧
      r.convertStage clusterInvocation.stage = "Get-Content log -Wait" ∧
      ∀ body, r.convertStage clusterInvocation.stage = clusterInvocation.finish body →
        ¬CountsKept clusterInvocation body := by
  intro r
  obtain ⟨hinv, hstated, htext, hparts⟩ :
      Invocation.ofTagged? clusterInvocation.stage (tagStage clusterInvocation.stage) =
          some clusterInvocation ∧
        statedCounts clusterInvocation = ["20".toList] ∧
        r.convertStage clusterInvocation.stage = "Get-Content log -Wait" ∧
        r.convertStage clusterInvocation.stage =
          clusterInvocation.finish ("Get-Content ".toList ++ "log".toList ++ " -Wait".toList) := by
    decide +kernel
  refine ⟨hinv, hstated, htext, fun body hbody hkept => ?_⟩
  obtain rfl := clusterInvocation.finish_injective (hparts.symm.trans hbody)
  obtain ⟨s, -, hcarries⟩ := hkept.carried "20" (by rw [hstated]; exact List.mem_cons_self)
  exact s.not_carries_wait _ hcarries

/-- The word of a count becomes a file where `-c` takes the `-n` in front of it for its value. -/
example : StageConverter.convertStage ⟨.builtin, .powerShell (some 7)⟩ "head -c -n 5" =
    "Get-Content 5 | Select-Object -First 5" := by
  decide +kernel

end CrossShell
