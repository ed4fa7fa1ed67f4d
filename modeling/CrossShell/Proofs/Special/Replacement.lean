import CrossShell.Proofs.Text.Template
import CrossShell.Special.Substitution

/-!
# What a replacement stands for

In the replacement of a substitution, and in the text that is written for it, a character can stand
for itself or take part in the name of a group of the match. The two have different names for groups
and different ways to write a character that would start one.

* `ReplacementPart`: a character or a group. `fillParts` puts the groups of a match in their places.
* `replacementParts`, `templateParts`: the parts that a replacement, and a text for `Replace`, stand
  for.
* `ReplacementItem`: how a part of a replacement is written. Both the parts and the text for `Replace`
  are made item by item (`replacementParts_eq`, `replacementText_eq`).
* `replacement_kept_iff`: a replacement keeps its meaning exactly if no dollar behind a backslash is
  read together with what is written behind it.
-/

namespace CrossShell

/-- A part of what a match is replaced by: a character, or the text of a group of the match, of
which the first is the whole match. -/
abbrev ReplacementPart := Part (Fin 10)

/-- The group that a digit names. -/
def groupOf (digit : Char) : ReplacementPart := .hole (Fin.ofNat 10 (digit.toNat - '0'.toNat))

/-! ## The two languages -/

/-- What a replacement stands for. `&` is the whole match and a digit behind a backslash is a group;
any other character behind a backslash stands for itself, as all else does. -/
def replacementParts : Text → List ReplacementPart
  | [] => []
  | ['\\'] => [.char '\\']
  | '\\' :: c :: cs => (if c.isDigit then groupOf c else .char c) :: replacementParts cs
  | c :: cs => (if c = '&' then groupOf '0' else .char c) :: replacementParts cs

/-- What `$` stands for together with the text behind it, if they belong together, and how many
characters of that text do: `$$`, `$&`, a digit in braces, or a digit. -/
def dollarName? : Text → Option (ReplacementPart × Nat)
  | [] => none
  | '{' :: d :: '}' :: _ => if d.isDigit then some (groupOf d, 3) else none
  | c :: _ =>
    if c = '$' then some (.char '$', 1)
    else if c = '&' then some (groupOf '0', 1)
    else if c.isDigit then some (groupOf c, 1)
    else none

/-- What a text for `Replace` stands for, of which `skip` characters belong to a name already read. -/
def templatePartsFrom : (skip : Nat) → Text → List ReplacementPart
  | _, [] => []
  | skip + 1, _ :: cs => templatePartsFrom skip cs
  | 0, c :: cs =>
    if c = '$' then
      match dollarName? cs with
      | some (part, n) => part :: templatePartsFrom n cs
      | none => .char '$' :: templatePartsFrom 0 cs
    else .char c :: templatePartsFrom 0 cs

/-- What a text for `Replace` stands for. -/
def templateParts (t : Text) : List ReplacementPart := templatePartsFrom 0 t

theorem templatePartsFrom_eq (skip : Nat) (t : Text) :
    templatePartsFrom skip t = templateParts (t.drop skip) := by
  induction skip generalizing t with
  | zero => rfl
  | succ skip ih =>
    cases t with
    | nil => rfl
    | cons c t => exact ih t

theorem templateParts_cons {c : Char} (hc : c ≠ '$') (t : Text) :
    templateParts (c :: t) = .char c :: templateParts t :=
  if_neg hc

theorem templateParts_name {t : Text} {part : ReplacementPart} {n : Nat}
    (h : dollarName? t = some (part, n)) :
    templateParts ('$' :: t) = part :: templateParts (t.drop n) := by
  rw [templateParts, templatePartsFrom, if_pos rfl, h, ← templatePartsFrom_eq]

theorem templateParts_alone {t : Text} (h : dollarName? t = none) :
    templateParts ('$' :: t) = .char '$' :: templateParts t := by
  rw [templateParts, templatePartsFrom, if_pos rfl, h, templatePartsFrom_eq, List.drop_zero]

/-! ## How parts are written -/

/-- A part of a replacement as it is written there. -/
inductive ReplacementItem where
  /-- A character without a backslash. -/
  | plain (c : Char)
  /-- A character behind a backslash. -/
  | escaped (c : Char)
  /-- A group: a digit behind a backslash, or `&` for the whole match. -/
  | reference (digit : Char) (isDigit : digit.isDigit = true)
  deriving DecidableEq

namespace ReplacementItem

/-- What the item stands for. -/
def part : ReplacementItem → ReplacementPart
  | plain c => .char c
  | escaped c => .char c
  | reference d _ => groupOf d

/-- The text that is written for the item. -/
def written : ReplacementItem → Text
  | plain c => if c = '$' then ['$', '$'] else [c]
  | escaped c => [c]
  | reference d _ => groupReference d

@[simp] theorem part_plain (c : Char) : (plain c).part = .char c := rfl

@[simp] theorem part_escaped (c : Char) : (escaped c).part = .char c := rfl

@[simp] theorem part_reference (d : Char) (hd : d.isDigit = true) :
    (reference d hd).part = groupOf d := rfl

end ReplacementItem

/-- The items of a replacement. -/
def replacementItems : Text → List ReplacementItem
  | [] => []
  | ['\\'] => [.plain '\\']
  | '\\' :: c :: cs =>
    (if h : c.isDigit then .reference c h else .escaped c) :: replacementItems cs
  | c :: cs => (if c = '&' then .reference '0' rfl else .plain c) :: replacementItems cs

/-- The text that is written for some items. -/
def writtenItems (items : List ReplacementItem) : Text := items.flatMap (·.written)

theorem writtenItems_cons (i : ReplacementItem) (items : List ReplacementItem) :
    writtenItems (i :: items) = i.written ++ writtenItems items :=
  List.flatMap_cons

theorem writtenItems_plain_dollar (items : List ReplacementItem) :
    writtenItems (.plain '$' :: items) = '$' :: '$' :: writtenItems items := rfl

theorem writtenItems_escaped_dollar (items : List ReplacementItem) :
    writtenItems (.escaped '$' :: items) = '$' :: writtenItems items := rfl

theorem writtenItems_reference (d : Char) (hd : d.isDigit = true) (items : List ReplacementItem) :
    writtenItems (.reference d hd :: items) = groupReference d ++ writtenItems items := rfl

/-- The parts of a replacement, item by item. -/
theorem replacementParts_eq (r : Text) :
    replacementParts r = (replacementItems r).map ReplacementItem.part := by
  fun_induction replacementParts r with
  | case1 => rfl
  | case2 => rfl
  | case3 c cs ih =>
    rw [replacementItems, List.map_cons, ih]
    split <;> rfl
  | case4 c cs hlone hpair ih =>
    rw [replacementItems, List.map_cons, ih]
    · split <;> rfl
    all_goals assumption

/-- The text for `Replace`, item by item. -/
theorem replacementText_eq (r : Text) : replacementText r = writtenItems (replacementItems r) := by
  fun_induction replacementText r with
  | case1 => rfl
  | case2 => rfl
  | case3 c cs hc ih =>
    rw [replacementItems, writtenItems_cons, ih, dif_pos hc]
    rfl
  | case4 c cs hc ih =>
    rw [replacementItems, writtenItems_cons, ih, dif_neg hc]
    rfl
  | case5 cs hlone hpair ih =>
    rw [replacementItems, writtenItems_cons, ih, if_pos rfl]
    · rfl
    all_goals assumption
  | case6 cs hlone hpair hamp ih =>
    rw [replacementItems, writtenItems_cons, ih, if_neg hamp]
    · rfl
    all_goals assumption
  | case7 c cs hlone hpair hamp hdollar ih =>
    rw [replacementItems, writtenItems_cons, ih, if_neg hamp, ReplacementItem.written,
      if_neg hdollar]
    · rfl
    all_goals assumption

/-! ## Reading what is written -/

/-- Whether a text would be read together with a `$` in front of it: it starts with `$`, `&`, a digit,
or a digit in braces. -/
def startsName : Text → Bool
  | [] => false
  | '{' :: d :: '}' :: _ => d.isDigit
  | c :: _ => c == '$' || c == '&' || c.isDigit

theorem dollarName?_eq_none_iff {t : Text} : dollarName? t = none ↔ startsName t = false := by
  fun_cases dollarName? t <;> simp_all [startsName]

theorem ne_dollar_of_isDigit {d : Char} (hd : d.isDigit = true) : d ≠ '$' := by
  rintro rfl
  cases hd

/-- What a name starts with is either a second `$`, or it is a group and has no `$` in it. -/
theorem dollarName?_cases {t : Text} {part : ReplacementPart} {n : Nat}
    (h : dollarName? t = some (part, n)) :
    (∃ rest, t = '$' :: rest ∧ part = .char '$' ∧ n = 1) ∨
      ∃ g name rest, part = .hole g ∧ t = name ++ rest ∧ n = name.length ∧ '$' ∉ name := by
  rw [dollarName?.eq_def] at h
  split at h
  · cases h
  · rename_i d rest
    split at h
    · rename_i hd
      cases h
      exact .inr ⟨_, ['{', d, '}'], rest, rfl, rfl, rfl, by simp [(ne_dollar_of_isDigit hd).symm]⟩
    · cases h
  · rename_i c rest hbraces
    split at h
    · rename_i hc
      cases h
      exact .inl ⟨rest, by rw [hc], rfl, rfl⟩
    · rename_i hc
      -- What is left is one character that names a group.
      have hone : (∃ g, part = .hole g) ∧ n = 1 := by
        split at h
        · cases h
          exact ⟨⟨_, rfl⟩, rfl⟩
        · split at h
          · cases h
            exact ⟨⟨_, rfl⟩, rfl⟩
          · cases h
      obtain ⟨⟨g, hg⟩, hn⟩ := hone
      exact .inr ⟨g, [c], rest, hg, rfl, hn, by simp [Ne.symm hc]⟩

theorem templateParts_append {name : Text} (h : '$' ∉ name) (t : Text) :
    templateParts (name ++ t) = name.map .char ++ templateParts t := by
  induction name with
  | nil => rfl
  | cons c name ih =>
    rw [List.mem_cons, not_or] at h
    rw [List.cons_append, templateParts_cons (Ne.symm h.1), ih h.2]
    rfl

/-- An item is read back from its text, whatever stands behind it, unless it is a dollar behind a
backslash. -/
theorem templateParts_written {i : ReplacementItem} (hi : i ≠ .escaped '$') (t : Text) :
    templateParts (i.written ++ t) = i.part :: templateParts t := by
  cases i with
  | plain c =>
    by_cases hc : c = '$'
    · subst hc
      exact templateParts_name (n := 1) rfl
    · rw [ReplacementItem.written, if_neg hc]
      exact templateParts_cons hc t
  | escaped c => exact templateParts_cons (fun hc => hi (by rw [hc])) t
  | reference d hd =>
    have hname : dollarName? ('{' :: d :: '}' :: t) = some (groupOf d, 3) := if_pos hd
    exact templateParts_name hname

/-- Behind an even number of dollars the text is read anew. -/
theorem templateParts_dollar_dollar (t : Text) :
    templateParts ('$' :: '$' :: t) = .char '$' :: templateParts t :=
  templateParts_name (n := 1) rfl

/-- The items whose text starts with a dollar. -/
theorem starts_dollar_cases {i : ReplacementItem} {items : List ReplacementItem}
    (h : (writtenItems (i :: items)).head? = some '$') :
    i = .plain '$' ∨ i = .escaped '$' ∨ ∃ d hd, i = .reference d hd := by
  rw [writtenItems_cons] at h
  cases i with
  | plain c =>
    by_cases hc : c = '$'
    · exact .inl (by rw [hc])
    · rw [ReplacementItem.written, if_neg hc] at h
      exact absurd (Option.some.inj h) hc
  | escaped c =>
    obtain rfl : c = '$' := Option.some.inj h
    exact .inr (.inl rfl)
  | reference d hd => exact .inr (.inr ⟨d, hd, rfl⟩)

/-! ## Dollars get lost, but none is made -/

/-- The number of dollars among some parts. -/
def dollars (parts : List ReplacementPart) : Nat := parts.count (.char '$')

theorem dollars_cons (p : ReplacementPart) (ps : List ReplacementPart) :
    dollars (p :: ps) = dollars ps + if p = .char '$' then 1 else 0 := by
  rw [dollars, List.count_cons, dollars]
  simp only [beq_iff_eq]

theorem dollars_append (ps qs : List ReplacementPart) :
    dollars (ps ++ qs) = dollars ps + dollars qs :=
  List.count_append

/-- In front of a text that does not start with one, a dollar adds at most itself. -/
theorem dollars_cons_le {t : Text} (h : t.head? ≠ some '$') :
    dollars (templateParts ('$' :: t)) ≤ dollars (templateParts t) + 1 := by
  cases hname : dollarName? t with
  | none =>
    refine Nat.le_of_eq ?_
    rw [templateParts_alone hname, dollars_cons, if_pos rfl]
  | some name =>
    obtain ⟨part, n⟩ := name
    rcases dollarName?_cases hname with ⟨rest, rfl, -⟩ | ⟨g, name, rest, rfl, rfl, rfl, hfree⟩
    · exact absurd rfl h
    · rw [templateParts_name hname, List.drop_left, templateParts_append hfree, dollars_cons,
        if_neg (by simp), dollars_append]
      omega

/-- The text of a group is no text behind a dollar: its own dollar makes a pair with it. -/
theorem templateParts_dollar_reference {d : Char} (hd : d.isDigit = true) (t : Text) :
    templateParts ('$' :: (groupReference d ++ t)) =
      .char '$' :: .char '{' :: .char d :: .char '}' :: templateParts t := by
  have hfree : '$' ∉ ['{', d, '}'] := by simp [(ne_dollar_of_isDigit hd).symm]
  exact (templateParts_dollar_dollar _).trans (congrArg _ (templateParts_append hfree t))

/-- Reading what is written never finds more dollars than the items have, and at most one more if a
dollar stands in front. -/
theorem dollars_writtenItems_le (items : List ReplacementItem) :
    dollars (templateParts (writtenItems items)) ≤ dollars (items.map (·.part)) ∧
      dollars (templateParts ('$' :: writtenItems items)) ≤ dollars (items.map (·.part)) + 1 := by
  induction items with
  | nil => decide
  | cons i items ih =>
    obtain ⟨ihread, ihlone⟩ := ih
    by_cases hi : i = .escaped '$'
    · subst hi
      rw [writtenItems_escaped_dollar, templateParts_dollar_dollar, List.map_cons, dollars_cons,
        dollars_cons, ReplacementItem.part_escaped, if_pos rfl]
      omega
    have hread : dollars (templateParts (writtenItems (i :: items))) ≤
        dollars ((i :: items).map (·.part)) := by
      rw [writtenItems_cons, templateParts_written hi, List.map_cons, dollars_cons, dollars_cons]
      omega
    refine ⟨hread, ?_⟩
    by_cases hhead : (writtenItems (i :: items)).head? = some '$'
    · rcases starts_dollar_cases hhead with rfl | rfl | ⟨d, hd, rfl⟩
      · rw [writtenItems_plain_dollar, templateParts_dollar_dollar, List.map_cons, dollars_cons,
          dollars_cons, ReplacementItem.part_plain, if_pos rfl]
        omega
      · exact absurd rfl hi
      · rw [writtenItems_reference, templateParts_dollar_reference hd, List.map_cons]
        simp [dollars_cons, ne_dollar_of_isDigit hd, groupOf, ihread]
    · have := dollars_cons_le hhead
      omega

/-! ## Where a dollar stands apart -/

/-- Whether a dollar behind a backslash is read together with what is written for the items behind
it. A plain dollar is written as a pair, which passes it on. -/
def joinsDollar (items : List ReplacementItem) : Bool :=
  startsName (writtenItems (items.dropWhile (· = .plain '$')))

theorem joinsDollar_plain (items : List ReplacementItem) :
    joinsDollar (.plain '$' :: items) = joinsDollar items := by
  rw [joinsDollar, List.dropWhile_cons_of_pos (by simp), joinsDollar]

theorem joinsDollar_of_ne {i : ReplacementItem} (h : i ≠ .plain '$')
    (items : List ReplacementItem) :
    joinsDollar (i :: items) = startsName (writtenItems (i :: items)) := by
  rw [joinsDollar, List.dropWhile_cons_of_neg (by simpa using h)]

/-- A dollar that stands apart is read as itself. -/
theorem templateParts_of_apart {items : List ReplacementItem} (h : joinsDollar items = false) :
    templateParts ('$' :: writtenItems items) = .char '$' :: templateParts (writtenItems items) := by
  induction items with
  | nil => rfl
  | cons i items ih =>
    by_cases hi : i = .plain '$'
    · subst hi
      rw [joinsDollar_plain] at h
      rw [writtenItems_plain_dollar, templateParts_dollar_dollar, ih h, templateParts_dollar_dollar]
    · rw [joinsDollar_of_ne hi] at h
      exact templateParts_alone (dollarName?_eq_none_iff.mpr h)

/-- A dollar that does not stand apart changes what is read. -/
theorem templateParts_of_joined {items : List ReplacementItem} (h : joinsDollar items = true) :
    templateParts ('$' :: writtenItems items) ≠ .char '$' :: items.map (·.part) := by
  induction items with
  | nil => cases h
  | cons i items ih =>
    by_cases hi : i = .plain '$'
    · subst hi
      rw [joinsDollar_plain] at h
      rw [writtenItems_plain_dollar, templateParts_dollar_dollar]
      exact fun heq => ih h (List.cons.inj heq).2
    rw [joinsDollar_of_ne hi] at h
    cases hname : dollarName? (writtenItems (i :: items)) with
    | none =>
      rw [dollarName?_eq_none_iff.mp hname] at h
      cases h
    | some name =>
      obtain ⟨part, n⟩ := name
      rcases dollarName?_cases hname with ⟨rest, hrest, -⟩ | ⟨g, -, -, rfl, -⟩
      · rcases starts_dollar_cases (by rw [hrest]; rfl) with rfl | rfl | ⟨d, hd, rfl⟩
        · exact absurd rfl hi
        · -- One dollar is left of two, and reading on cannot make up for it.
          intro heq
          rw [writtenItems_escaped_dollar, templateParts_dollar_dollar] at heq
          have hcount := congrArg dollars (List.cons.inj heq).2
          have hle := (dollars_writtenItems_le items).1
          rw [List.map_cons, dollars_cons, ReplacementItem.part_escaped, if_pos rfl] at hcount
          omega
        · rw [writtenItems_reference, templateParts_dollar_reference hd]
          simp [ReplacementItem.part, groupOf]
      · rw [templateParts_name hname]
        simp

/-- What holds behind each occurrence of a member of a list, taken from the left. -/
theorem forall_behind_cons {α : Type} {P : List α → Prop} {a b : α} {as : List α} :
    (∀ front rest, b :: as = front ++ a :: rest → P rest) ↔
      (b = a → P as) ∧ ∀ front rest, as = front ++ a :: rest → P rest := by
  constructor
  · refine fun h => ⟨fun hab => h [] as (by rw [hab]; rfl), fun front rest heq => ?_⟩
    exact h (b :: front) rest (by rw [heq]; rfl)
  · rintro ⟨hfirst, hlater⟩ front rest heq
    cases front with
    | nil =>
      obtain ⟨rfl, rfl⟩ := List.cons.inj heq
      exact hfirst rfl
    | cons c front => exact hlater front rest (List.cons.inj heq).2

/-- What is written for some items is read back as their parts exactly if each dollar behind
a backslash stands apart. -/
theorem templateParts_writtenItems_iff (items : List ReplacementItem) :
    templateParts (writtenItems items) = items.map (·.part) ↔
      ∀ front rest, items = front ++ .escaped '$' :: rest → joinsDollar rest = false := by
  induction items with
  | nil => simp [writtenItems, templateParts, templatePartsFrom]
  | cons i items ih =>
    rw [forall_behind_cons, ← ih]
    by_cases hi : i = .escaped '$'
    · subst hi
      rw [writtenItems_escaped_dollar, List.map_cons, ReplacementItem.part_escaped]
      cases hjoins : joinsDollar items with
      | true => simpa using templateParts_of_joined hjoins
      | false => rw [templateParts_of_apart hjoins]; simp
    · rw [writtenItems_cons, templateParts_written hi, List.map_cons]
      simp [hi]

/-! ## Texts for all matches -/

/-- **A replacement keeps its meaning exactly if its dollars stand apart.** Read as a replacement, and
as the text for `Replace` that is written for it, it gives the same for every match if and only if
no dollar behind a backslash is read together with what is written behind it: behind such a dollar
and any number of plain ones stands no second one, no group, no `&` behind a backslash, no digit, and
no digit in braces. -/
theorem replacement_kept_iff (r : Text) :
    (∀ groups, fillParts groups (templateParts (replacementText r)) =
        fillParts groups (replacementParts r)) ↔
      ∀ front rest, replacementItems r = front ++ .escaped '$' :: rest →
        joinsDollar rest = false := by
  rw [← templateParts_writtenItems_iff, ← replacementText_eq, ← replacementParts_eq]
  exact ⟨eq_of_fillParts, fun h groups => by rw [h]⟩

/-- A dollar behind a backslash and a digit become the name of a group. -/
theorem escaped_dollar_names_group :
    replacementText "\\$1" = "$1" ∧
      fillParts (fun _ => ['x']) (replacementParts "\\$1") = "$1" ∧
      fillParts (fun _ => ['x']) (templateParts (replacementText "\\$1")) = "x" := by
  decide

end CrossShell
