import CrossShell.Proofs.Line.Literals
import CrossShell.Proofs.Stage.Finish

/-!
# Classes of characters

For `tr -d` a pattern is written that is one class in brackets. Between the brackets many characters
mean something, each at its own place: `^` in front negates, `-` makes a range or a subtraction, `]`
is the end. The reader of patterns finds none of this in what is written for a set.

* `CharClass`, `CharClass.accepts`: a class, and the characters that it has.
* `classSigns?`: a text without its backslashes; `readSigns?`: a class read from its signs.
  `readClass?`: a whole text as one class.
* `classSigns?_flatMap_classMember`, `readSigns?_members`: what these make of the members of a set.
* `readDeletion?`: the stage that deletes the characters of a class.
* `class_members_exact`: the class of a set has its members, and the stage deletes these.
-/

namespace CrossShell

/-! ## The reader of patterns -/

/-- An item of a class. -/
inductive ClassItem where
  /-- A character. -/
  | char (c : Char)
  /-- The characters from one to another. -/
  | range (first last : Char)
  deriving DecidableEq, Repr

/-- A class of characters. -/
inductive CharClass where
  /-- The characters of some items, or all others. -/
  | items (negated : Bool) (items : List ClassItem)
  /-- The same without the characters of another class. -/
  | without (negated : Bool) (items : List ClassItem) (other : CharClass)
  deriving DecidableEq, Repr

/-- Whether a character belongs to an item. -/
def ClassItem.covers (c : Char) : ClassItem → Bool
  | char d => c = d
  | range first last => first.toNat ≤ c.toNat && c.toNat ≤ last.toNat

namespace CharClass

/-- Whether a class has a character. -/
def accepts : CharClass → Char → Bool
  | items negated is, c => is.any (·.covers c) != negated
  | without negated is other, c => (is.any (·.covers c) != negated) && !other.accepts c

/-- The class with one more item in front. -/
def cons (item : ClassItem) : CharClass → CharClass
  | items negated is => items negated (item :: is)
  | without negated is other => without negated (item :: is) other

/-- A line without the characters of a class. -/
def deleteFrom (cls : CharClass) (line : Text) : Text := line.filter (!cls.accepts ·)

end CharClass

/-- A character between the brackets of a class. -/
inductive ClassSign where
  /-- A character that may mean something at its place. -/
  | bare (c : Char)
  /-- A character that stands for itself. -/
  | escaped (c : Char)
  deriving DecidableEq, Repr

/-- The character. -/
def ClassSign.char : ClassSign → Char
  | bare c | escaped c => c

/-- Whether a character is an ASCII sign: visible, and neither a letter nor a digit. -/
def isPunctuation (c : Char) : Bool := 0x21 ≤ c.toNat && c.toNat ≤ 0x7E && !c.isAlphanum

/-- What a character behind a backslash stands for: three letters are control characters, and signs
stand for themselves. Other escapes are not known here. -/
def escapeOf? (c : Char) : Option Char :=
  if c = 'n' then some '\n'
  else if c = 't' then some '\t'
  else if c = 'r' then some '\r'
  else if isPunctuation c then some c
  else none

/-- The signs of a text. -/
def classSigns? : Text → Option (List ClassSign)
  | [] => some []
  | ['\\'] => none
  | '\\' :: c :: cs => (escapeOf? c).bind fun d => (classSigns? cs).map (.escaped d :: ·)
  | c :: cs => (classSigns? cs).map (.bare c :: ·)

/-- Reads a class up to its closing bracket, from the signs behind the opening one: the class, and
what follows it. `-` makes a range between two signs, and in front of `[` a subtraction, behind
which the class ends; elsewhere it stands for itself. -/
def readSigns? : (atStart negated : Bool) → List ClassSign → Option (CharClass × List ClassSign)
  | _, _, [] => none
  | true, _, .bare '^' :: ss => readSigns? false true ss
  | _, negated, .bare ']' :: ss => some (.items negated [], ss)
  | _, negated, .bare '-' :: .bare '[' :: ss =>
    match readSigns? true false ss with
    | some (other, .bare ']' :: rest) => some (.without negated [] other, rest)
    | _ => none
  | _, negated, s :: .bare '-' :: t :: ss =>
    if t = .bare ']' ∨ t = .bare '[' then
      (readSigns? false negated (.bare '-' :: t :: ss)).map fun (cls, rest) =>
        (cls.cons (.char s.char), rest)
    else if s.char.toNat ≤ t.char.toNat then
      (readSigns? false negated ss).map fun (cls, rest) =>
        (cls.cons (.range s.char t.char), rest)
    else none
  | _, negated, s :: ss =>
    (readSigns? false negated ss).map fun (cls, rest) => (cls.cons (.char s.char), rest)

/-- Reads a text that is one class. -/
def readClass? (t : Text) : Option CharClass :=
  match t with
  | '[' :: rest =>
    match (classSigns? rest).bind (readSigns? true false) with
    | some (cls, []) => some cls
    | _ => none
  | _ => none

/-! ## The members of a set -/

/-- The characters that are written with a backslash. -/
def isProtected (c : Char) : Bool := c ∈ ['\\', ']', '[', '^', '-', '\n', '\t', '\r']

/-- The sign that a member of a set is read as. -/
def memberSign (c : Char) : ClassSign := if isProtected c then .escaped c else .bare c

theorem char_memberSign (c : Char) : (memberSign c).char = c := by
  unfold memberSign
  split <;> rfl

/-- No member is read as a sign with a meaning. -/
theorem memberSign_ne_bare {c d : Char} (hd : isProtected d = true) : memberSign c ≠ .bare d := by
  unfold memberSign
  split
  · simp
  · rintro ⟨⟩
    contradiction

theorem classSigns?_cons {c : Char} (hc : c ≠ '\\') (cs : Text) :
    classSigns? (c :: cs) = (classSigns? cs).map (.bare c :: ·) := by
  rw [classSigns?]
  · exact fun h _ => hc h
  · exact fun _ _ h _ => hc h

/-- A protected member is written as a pair that stands for it. -/
theorem exists_escape_of_isProtected {c : Char} (h : isProtected c = true) :
    ∃ e, classMember c = ['\\', e] ∧ escapeOf? e = some c := by
  have hcases : c = '\\' ∨ c = ']' ∨ c = '[' ∨ c = '^' ∨ c = '-' ∨ c = '\n' ∨ c = '\t' ∨
      c = '\r' := by
    simpa [isProtected] using h
  rcases hcases with rfl | rfl | rfl | rfl | rfl | rfl | rfl | rfl <;> exact ⟨_, rfl, rfl⟩

theorem classMember_of_not_isProtected {c : Char} (h : isProtected c = false) :
    classMember c = [c] := by
  simp only [isProtected, List.mem_cons, List.not_mem_nil, or_false, decide_eq_false_iff_not,
    not_or] at h
  unfold classMember
  split
  · simp at h
  · simp at h
  · simp at h
  · exact if_neg (by simp [h])

/-- A member is read as its sign, whatever stands behind it. -/
theorem classSigns?_classMember (c : Char) (t : Text) :
    classSigns? (classMember c ++ t) = (classSigns? t).map (memberSign c :: ·) := by
  cases hc : isProtected c with
  | true =>
    obtain ⟨e, hmember, hescape⟩ := exists_escape_of_isProtected hc
    rw [hmember, memberSign, if_pos hc]
    show classSigns? ('\\' :: e :: t) = _
    rw [classSigns?, hescape]
    rfl
  | false =>
    have hslash : c ≠ '\\' := by
      rintro rfl
      cases hc
    rw [classMember_of_not_isProtected hc, memberSign, if_neg (by simp [hc])]
    exact classSigns?_cons hslash t

theorem classSigns?_flatMap_classMember (chars t : Text) :
    classSigns? (chars.flatMap classMember ++ t) =
      (classSigns? t).map (chars.map memberSign ++ ·) := by
  induction chars with
  | nil => simp
  | cons c chars ih =>
    rw [List.flatMap_cons, List.append_assoc, classSigns?_classMember, ih, Option.map_map]
    rfl

/-- A sign without a meaning in front of one that makes no range is an item of its own, at the start
of a class and behind it. -/
theorem readSigns?_cons {s : ClassSign} {ss : List ClassSign}
    (hs : ∀ d, isProtected d = true → s ≠ .bare d) (hss : ss.head? ≠ some (.bare '-'))
    (atStart negated : Bool) : readSigns? atStart negated (s :: ss) =
      (readSigns? false negated ss).map fun (cls, rest) => (cls.cons (.char s.char), rest) := by
  rw [readSigns?]
  · exact fun h => hs ']' rfl h
  · exact fun _ h _ => hs '-' rfl h
  · rintro t rest rfl
    exact hss rfl
  · exact fun _ h => hs '^' rfl h

/-- The members of a set are read one by one, up to the end of the class. -/
theorem readSigns?_members (atStart : Bool) (chars : Text) :
    readSigns? atStart false (chars.map memberSign ++ [.bare ']']) =
      some (.items false (chars.map .char), []) := by
  induction chars generalizing atStart with
  | nil => cases atStart <;> rfl
  | cons c chars ih =>
    have hhead : (chars.map memberSign ++ [ClassSign.bare ']']).head? ≠ some (.bare '-') := by
      cases chars with
      | nil => simp
      | cons d chars => simpa using memberSign_ne_bare (c := d) (d := '-') rfl
    rw [List.map_cons, List.cons_append, readSigns?_cons (fun _ => memberSign_ne_bare) hhead, ih,
      char_memberSign]
    rfl

/-- What is written for a set is a class of its members. -/
theorem readClass?_characterClass (chars : Text) :
    readClass? (characterClass chars) = some (.items false (chars.map .char)) := by
  have hwritten : characterClass chars = '[' :: (chars.flatMap classMember ++ [']']) := rfl
  have hend : classSigns? [']'] = some [.bare ']'] := rfl
  rw [hwritten, readClass?, classSigns?_flatMap_classMember, hend]
  simp only [Option.map_some, Option.bind_some, readSigns?_members]

theorem accepts_chars (chars : Text) (c : Char) :
    (CharClass.items false (chars.map .char)).accepts c = decide (c ∈ chars) := by
  rw [Bool.eq_iff_iff]
  simp [CharClass.accepts, ClassItem.covers]

/-- The class of a set deletes the characters of the set. -/
theorem deleteFrom_chars (chars line : Text) :
    (CharClass.items false (chars.map .char)).deleteFrom line = line.filter (· ∉ chars) := by
  simp only [CharClass.deleteFrom, accepts_chars, decide_not]

/-! ## Stages that delete -/

/-- The class whose characters a stage deletes: a block that replaces each match of a class by
nothing. -/
def readDeletion? (stage : Text) : Option CharClass :=
  (Text.dropFront? stage "ForEach-Object \x7b $_ -creplace ").bind fun rest =>
    (readLiteral? rest).bind fun (pattern, rest) =>
      if rest = ", '' \x7d" then readClass? pattern else none

theorem readDeletion?_of_deleteChars? {set body : Text} (h : deleteChars? set = some body) :
    readDeletion? body = some (.items false (set.map .char)) := by
  unfold deleteChars? at h
  split at h
  · cases h
  cases h
  have hparts : "ForEach-Object \x7b $_ -creplace ".toList =
        "ForEach-Object ".toList ++ ("\x7b ".toList ++ "$_ -creplace ".toList) ∧
      ", '' \x7d".toList = ", ''".toList ++ " \x7d".toList := by decide +kernel
  have hbody : forEachItem ("$_ -creplace ".toList ++ Text.singleQuoted (characterClass set) ++
      ", ''".toList) = "ForEach-Object \x7b $_ -creplace ".toList ++
        (Text.singleQuoted (characterClass set) ++ ", '' \x7d".toList) := by
    unfold forEachItem scriptBlock
    rw [hparts.1, hparts.2]
    simp only [List.append_assoc]
  have hread : readLiteral? (Text.singleQuoted (characterClass set) ++ ", '' \x7d".toList) =
      some (characterClass set, ", '' \x7d".toList) :=
    readLiteral?_eq_some_iff.mpr ⟨rfl, by decide⟩
  rw [hbody, readDeletion?, Text.dropFront?_append, Option.bind_some, hread, Option.bind_some]
  exact (if_pos rfl).trans (readClass?_characterClass set)

/-- An invocation is `tr -d` with one set. -/
def Invocation.DeletesSet (inv : Invocation) (word : Text) : Prop :=
  inv.name = Special.tr.name ∧ inv.flags ≠ [] ∧ (∀ flag ∈ inv.flags, flag = ['-', 'd']) ∧
    inv.arguments = [word]

theorem Invocation.positionals_nil (inv : Invocation) : inv.positionals [] = inv.arguments := by
  unfold positionals arguments
  induction inv.words with
  | nil => rfl
  | cons w words ih =>
    rw [positionalsIn, List.filter_cons]
    cases w.isFlag with
    | true => simpa using ih
    | false => simpa using ih

namespace Invocation.DeletesSet

variable {inv : Invocation} {word : Text}

theorem hasFlag_d (h : inv.DeletesSet word) : inv.hasFlag ['-', 'd'] = true := by
  obtain ⟨-, hne, hflags, -⟩ := h
  obtain ⟨flag, hflag⟩ := List.exists_mem_of_ne_nil _ hne
  rw [hasFlag, List.contains_iff_mem, ← hflags flag hflag]
  exact hflag

theorem convertTr?_eq (h : inv.DeletesSet word) :
    convertTr? inv = ((expandSet? (Text.unquote word)).bind deleteChars?).map inv.finish := by
  have hflag : inv.hasFlag "-d" = true := h.hasFlag_d
  have hwords : inv.positionals [] = [word] := inv.positionals_nil.trans h.2.2.2
  simp only [convertTr?, hwords, hflag, List.mapM_cons, List.mapM_nil, Option.bind_eq_bind,
    Option.pure_def, Option.bind_some]
  cases expandSet? (Text.unquote word) with
  | none => rfl
  | some set =>
    simp only [Option.bind_some]
    cases deleteChars? set <;> rfl

theorem unsupportedFlags_eq (h : inv.DeletesSet word) :
    (Special.tr.unsupportedFlags inv).isEmpty = true := by
  have haccepts : Special.tr.acceptsFlag ['-', 'd'] = true := by decide
  have hscope : Special.tr.scope = .whole := rfl
  rw [Special.unsupportedFlags, Special.ownFlags, hscope, List.isEmpty_iff, List.filter_eq_nil_iff]
  intro flag hflag
  rw [h.2.2.1 flag hflag, haccepts]
  simp

end Invocation.DeletesSet

section

variable {r : StageConverter} {depth : Nat} {stage : Text} {inv : Invocation} {word : Text}

theorem convertStageAt_of_deletesSet (hneeds : r.target.needsConversion = true)
    (hgroup : isGrouped stage = false) (hheredoc : ∀ t ∈ tagStage stage, t.token.isHeredoc = false)
    (hinv : Invocation.ofTagged? stage (tagStage stage) = some inv) (h : inv.DeletesSet word) :
    r.convertStageAt depth stage =
      (((expandSet? (Text.unquote word)).bind deleteChars?).map inv.finish).getD stage := by
  have hspecial : Special.ofName? Special.tr.name = some .tr := by decide +kernel
  rw [StageConverter.convertStageAt_eq,
    StageConverter.convertStage?_of_ofTagged? hneeds hgroup hheredoc hinv,
    StageConverter.convertInvocation?_of_special (h.1 ▸ hspecial) h.unsupportedFlags_eq]
  exact congrArg (Option.getD · stage) h.convertTr?_eq

end

/-- **The class of a set.** Whatever characters a set has, in whatever order, the pattern that is
written for it is read as one class from its first to its last character, without a negation, a
range or a subtraction, and its items are the characters of the set in order. So the counterpart of
`tr -d` with a set that has members deletes from every line exactly these; with any other set the
stage stays as it is. -/
theorem class_members_exact :
    (∀ chars : Text, readClass? (characterClass chars) = some (.items false (chars.map .char))) ∧
      ∀ (r : StageConverter) (depth : Nat) (stage : Text) (inv : Invocation) (word : Text),
        r.target.needsConversion = true → isGrouped stage = false →
        (∀ t ∈ tagStage stage, t.token.isHeredoc = false) →
        Invocation.ofTagged? stage (tagStage stage) = some inv → inv.DeletesSet word →
        match expandSet? (Text.unquote word) with
        | some (c :: cs) => ∃ body cls, r.convertStageAt depth stage = inv.finish body ∧
            readDeletion? body = some cls ∧
            ∀ line, cls.deleteFrom line = line.filter (· ∉ c :: cs)
        | _ => r.convertStageAt depth stage = stage := by
  refine ⟨readClass?_characterClass, ?_⟩
  intro r depth stage inv word hneeds hgroup hheredoc hinv h
  have hstage : r.convertStageAt depth stage = _ :=
    convertStageAt_of_deletesSet hneeds hgroup hheredoc hinv h
  split
  · rename_i c cs hset
    obtain ⟨body, hbody⟩ : ∃ body, deleteChars? (c :: cs) = some body := ⟨_, rfl⟩
    rw [hset, Option.bind_some, hbody] at hstage
    exact ⟨body, _, hstage, readDeletion?_of_deleteChars? hbody, deleteFrom_chars _⟩
  · rename_i hset
    rw [hstage]
    cases hexpand : expandSet? (Text.unquote word) with
    | none => rfl
    | some set =>
      cases set with
      | nil => rfl
      | cons c cs => exact absurd hexpand (hset c cs)

/-- A set of which every character but one means something between brackets. -/
def bracketInvocation : Invocation :=
  ⟨"tr", "tr -d '^a\\-]' < in",
    [⟨⟨"-d", 3, 5, none⟩, .flag⟩, ⟨⟨"'^a\\-]'", 6, 13, some .single⟩, .argument⟩], ["<", "in"]⟩

/-- The four characters are deleted; an opening bracket is not one of them. -/
theorem class_members_brackets :
    let r : StageConverter := ⟨.builtin, .powerShell (some 7)⟩
    (∃ body cls, r.convertStageAt 8 bracketInvocation.stage = bracketInvocation.finish body ∧
      readDeletion? body = some cls ∧ cls.deleteFrom "[a-c]^" = "[c".toList) ∧
      r.convertStageAt 8 bracketInvocation.stage =
        "Get-Content in | ForEach-Object \x7b $_ -creplace '[\\^a\\-\\]]', '' \x7d".toList := by
  intro r
  obtain ⟨hgroup, hheredoc, hinv, hset⟩ : isGrouped bracketInvocation.stage = false ∧
      (∀ t ∈ tagStage bracketInvocation.stage, t.token.isHeredoc = false) ∧
      Invocation.ofTagged? bracketInvocation.stage (tagStage bracketInvocation.stage) =
        some bracketInvocation ∧
      expandSet? (Text.unquote "'^a\\-]'") = some ['^', 'a', '-', ']'] := by decide +kernel
  have hdeletes : bracketInvocation.DeletesSet "'^a\\-]'" := by
    refine ⟨rfl, ?_, ?_, rfl⟩ <;> decide
  have hstage := class_members_exact.2 r 8 _ _ _ rfl hgroup hheredoc hinv hdeletes
  rw [hset] at hstage
  obtain ⟨body, cls, hbody, hread, hdelete⟩ := hstage
  exact ⟨⟨body, cls, hbody, hread, (hdelete _).trans (by decide)⟩, by decide +kernel⟩

end CrossShell
