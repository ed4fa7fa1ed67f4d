import CrossShell.Proofs.Line.Literals
import CrossShell.Proofs.Text.Template
import CrossShell.Proofs.Token.Unquote
import CrossShell.Special.Environment

/-!
# Values of exported variables

The right side of an assignment is read by a shell, and what is written for it by PowerShell. Both
read characters and references to variables, which an environment fills in.

* `ValueItem`: how a piece of a value is written. `SpellsValue` says how items spell a text.
* `ShellReads`: the items that a shell reads from the right side of an assignment.
* `powerShellParts?`: what PowerShell reads from a string.
* `ValueItem.isMisread`: a dollar behind a backslash, and a name that goes on in another script.
* `exported_value_kept_iff`: a value keeps its meaning exactly if no item of it is misread.
-/

namespace CrossShell

open Text

/-! ## The reading of a shell -/

/-- Whether a character may continue a name. -/
def isNameChar (c : Char) : Bool := c.isAlphanum || c == '_'

/-- A piece of a value, as it is written. -/
inductive ValueItem where
  /-- A character by itself. -/
  | plain (c : Char)
  /-- A character behind a backslash. -/
  | escaped (c : Char)
  /-- A reference to a variable, with braces around its name or without. -/
  | reference (name : Text) (braced : Bool)
  deriving DecidableEq, Repr

/-- What an item stands for. A backslash takes the meaning from a quote, a backslash and a dollar,
and in front of any other character it stands for itself. -/
def ValueItem.parts : ValueItem → List (Part Text)
  | plain c => [.char c]
  | escaped c => if c = '"' ∨ c = '\\' ∨ c = '$' then [.char c] else [.char '\\', .char c]
  | reference name _ => [.hole name]

/-- Items spell a text, in which every dollar stands behind a backslash or in front of a name of
ASCII letters, digits and `_`. A name without braces goes on as far as it can. -/
inductive SpellsValue : List ValueItem → Text → Prop
  | nil : SpellsValue [] []
  | plain {c : Char} {items : List ValueItem} {t : Text} (hquote : c ≠ '"') (hslash : c ≠ '\\')
      (hdollar : c ≠ '$') (h : SpellsValue items t) : SpellsValue (.plain c :: items) (c :: t)
  | escaped (c : Char) {items : List ValueItem} {t : Text} (h : SpellsValue items t) :
      SpellsValue (.escaped c :: items) ('\\' :: c :: t)
  | name {name : Text} {items : List ValueItem} {t : Text} (hname : isIdentifier name = true)
      (hend : ∀ c ∈ t.head?, isNameChar c = false) (h : SpellsValue items t) :
      SpellsValue (.reference name false :: items) ('$' :: (name ++ t))
  | braces {name : Text} {items : List ValueItem} {t : Text} (hname : isIdentifier name = true)
      (h : SpellsValue items t) :
      SpellsValue (.reference name true :: items) ('$' :: '{' :: (name ++ '}' :: t))

/-- What a shell reads from the right side of an assignment that is in one pair of double quotes, or
has neither quotes nor backslashes. -/
inductive ShellReads (items : List ValueItem) : Text → Prop
  | quoted {inside : Text} (h : SpellsValue items inside) :
      ShellReads items ('"' :: (inside ++ ['"']))
  | bare {raw : Text} (hplain : ∀ c ∈ raw, c ≠ '\'' ∧ c ≠ '"' ∧ c ≠ '\\')
      (h : SpellsValue items raw) : ShellReads items raw

/-- The value of some items in an environment. -/
def shellValue (env : Text → Text) (items : List ValueItem) : Text :=
  fillParts env (items.flatMap ValueItem.parts)

/-! ## The reading of PowerShell -/

/-- The name of the variable that `${env:NAME}` reads, from the text behind the dollar. -/
def readName? (t : Text) : Option Text :=
  (dropFront? t "\x7benv:").bind fun rest =>
    let name := rest.takeWhile (· != '}')
    if (rest.drop name.length).head? = some '}' then some name else none

/-- What a string in double quotes stands for, from the text behind the first of them, of which
`skip` characters are already read. The quote that ends it has nothing behind it. -/
def expandableFrom? : (skip : Nat) → Text → Option (List (Part Text))
  | _, [] => none
  | skip + 1, _ :: cs => expandableFrom? skip cs
  | 0, c :: cs =>
    if c = '"' then if cs.isEmpty then some [] else none
    else if c = '\x60' then
      cs.head?.bind fun d => (expandableFrom? 1 cs).map (.char d :: ·)
    else if c = '$' then
      match readName? cs with
      | some name => (expandableFrom? (name.length + 6) cs).map (.hole name :: ·)
      | none => (expandableFrom? 0 cs).map (.char '$' :: ·)
    else (expandableFrom? 0 cs).map (.char c :: ·)

/-- What a string stands for, in single or in double quotes. -/
def powerShellParts? (t : Text) : Option (List (Part Text)) :=
  match t with
  | '"' :: rest => expandableFrom? 0 rest
  | t =>
    match readLiteral? t with
    | some (s, []) => some (s.map .char)
    | _ => none

/-- The value of a string in an environment. -/
def powerShellValue? (env : Text → Text) (t : Text) : Option Text :=
  (powerShellParts? t).map (fillParts env)

theorem expandableFrom?_eq (skip : Nat) (t : Text) :
    expandableFrom? skip t = expandableFrom? 0 (t.drop skip) := by
  induction skip generalizing t with
  | zero => rfl
  | succ skip ih =>
    cases t with
    | nil => rfl
    | cons c t => exact ih t

theorem expandable_cons {c : Char} (hquote : c ≠ '"') (htick : c ≠ '\x60') (hdollar : c ≠ '$')
    (t : Text) : expandableFrom? 0 (c :: t) = (expandableFrom? 0 t).map (.char c :: ·) := by
  rw [expandableFrom?, if_neg hquote, if_neg htick, if_neg hdollar]

theorem expandable_tick (c : Char) (t : Text) :
    expandableFrom? 0 ('\x60' :: c :: t) = (expandableFrom? 0 t).map (.char c :: ·) := by
  rw [expandableFrom?, if_neg (by decide), if_pos rfl, expandableFrom?_eq]
  rfl

theorem readName?_append {name : Text} (h : '}' ∉ name) (t : Text) :
    readName? ('{' :: 'e' :: 'n' :: 'v' :: ':' :: (name ++ '}' :: t)) = some name := by
  have hname : (name ++ '}' :: t).takeWhile (· != '}') = name := by
    have hfree : ∀ c ∈ name, (c != '}') = true := by
      intro c hc
      rw [bne_iff_ne]
      rintro rfl
      exact h hc
    rw [List.takeWhile_append_of_pos hfree, List.takeWhile_cons_of_neg (by simp), List.append_nil]
  have hdrop : dropFront? ('{' :: 'e' :: 'n' :: 'v' :: ':' :: (name ++ '}' :: t)) "\x7benv:" =
      some (name ++ '}' :: t) := rfl
  rw [readName?, hdrop, Option.bind_some]
  simp only [hname, List.drop_left, List.head?_cons, if_true]

theorem envRead_eq (name : Text) :
    envRead name = '$' :: '{' :: 'e' :: 'n' :: 'v' :: ':' :: (name ++ ['}']) := rfl

/-- A read of the environment is read as one. -/
theorem expandable_envRead {name : Text} (h : '}' ∉ name) (t : Text) :
    expandableFrom? 0 (envRead name ++ t) = (expandableFrom? 0 t).map (.hole name :: ·) := by
  have hread : envRead name ++ t =
      '$' :: '{' :: 'e' :: 'n' :: 'v' :: ':' :: (name ++ '}' :: t) := by
    simp [envRead_eq]
  have hdrop : ('{' :: 'e' :: 'n' :: 'v' :: ':' :: (name ++ '}' :: t)).drop (name.length + 6) =
      t := by
    show (name ++ '}' :: t).drop (name.length + 1) = t
    rw [← List.drop_drop, List.drop_left]
    rfl
  rw [hread, expandableFrom?, if_neg (by decide), if_neg (by decide), if_pos rfl,
    readName?_append h]
  show (expandableFrom? (name.length + 6) _).map _ = _
  rw [expandableFrom?_eq, hdrop]

/-! ## Characters of names -/

theorem isWordChar_of_isNameChar {c : Char} (h : isNameChar c = true) :
    Text.isWordChar c = true := by
  rcases Bool.or_eq_true_iff.mp h with halnum | hunderscore
  · exact Text.isWordChar_of_isAlphanum halnum
  · obtain rfl : c = '_' := by simpa using hunderscore
    decide +kernel

theorem isNameChar_of_isNameStart {c : Char} (h : isNameStart c = true) : isNameChar c = true := by
  have halnum : c.isAlphanum = (c.isAlpha || c.isDigit) := rfl
  rw [isNameStart] at h
  rw [isNameChar, halnum, Bool.or_right_comm, h]
  rfl

theorem isNameChar_of_isIdentifier {name : Text} (h : isIdentifier name = true) :
    ∀ c ∈ name, isNameChar c = true := by
  cases name with
  | nil => simp
  | cons d ds =>
    obtain ⟨hfirst, hrest⟩ := Bool.and_eq_true_iff.mp h
    intro c hc
    rcases List.mem_cons.mp hc with rfl | hc
    · exact isNameChar_of_isNameStart hfirst
    · exact List.all_eq_true.mp hrest c hc

theorem isWordChar_of_isIdentifier {name : Text} (h : isIdentifier name = true) :
    ∀ c ∈ name, Text.isWordChar c = true :=
  fun c hc => isWordChar_of_isNameChar (isNameChar_of_isIdentifier h c hc)

/-- The characters that have a meaning in one of the two readings. -/
def valueSigns : List Char := ['"', '\\', '$', '\x60', '{', '}', '(']

/-- None of them may stand in a name. -/
theorem notMem_of_isWordChar {t : Text} (h : ∀ c ∈ t, Text.isWordChar c = true) {c : Char}
    (hc : c ∈ valueSigns) : c ∉ t := by
  have hsigns : ∀ c ∈ valueSigns, Text.isWordChar c = false := by decide +kernel
  intro hmem
  have hword := h c hmem
  rw [hsigns c hc] at hword
  cases hword

/-! ## What is written -/

theorem expandReferences_eq (skip : Nat) (t : Text) :
    expandReferences skip t = expandReferences 0 (t.drop skip) := by
  induction skip generalizing t with
  | zero => rfl
  | succ skip ih =>
    cases t with
    | nil => rfl
    | cons c t => exact ih t

theorem expandReferences_append {s : Text} (h : '$' ∉ s) (t : Text) :
    expandReferences 0 (s ++ t) = s ++ expandReferences 0 t := by
  induction s with
  | nil => rfl
  | cons c s ih =>
    rw [List.mem_cons, not_or] at h
    rw [List.cons_append, expandReferences, if_neg (Ne.symm h.1), ih h.2, List.cons_append]

theorem expandReferences_dollar {t name : Text} {n : Nat} (h : envReference? t = some (name, n)) :
    expandReferences 0 ('$' :: t) = envRead name ++ expandReferences 0 (t.drop n) := by
  rw [expandReferences, if_pos rfl, h, ← expandReferences_eq]

theorem leadingName?_append {name : Text} (h : isIdentifier name = true) (t : Text) :
    leadingName? (name ++ t) = some (name ++ t.takeWhile Text.isWordChar) := by
  have hword := isWordChar_of_isIdentifier h
  cases name with
  | nil => cases h
  | cons c cs =>
    have hfirst := (Bool.and_eq_true_iff.mp h).1
    rw [List.cons_append, leadingName?, if_pos hfirst,
      List.takeWhile_append_of_pos fun d hd => hword d (List.mem_cons_of_mem _ hd)]
    rfl

/-- The name of a reference without braces goes on with the word characters behind it. -/
theorem envReference?_name {name : Text} (h : isIdentifier name = true) (t : Text) :
    envReference? (name ++ t) = some (name ++ t.takeWhile Text.isWordChar,
      (name ++ t.takeWhile Text.isWordChar).length) := by
  have hlead := leadingName?_append h t
  have hbrace := notMem_of_isWordChar (isWordChar_of_isIdentifier h) (c := '{') (by decide)
  cases name with
  | nil => cases h
  | cons c cs =>
    rw [List.cons_append] at hlead ⊢
    rw [envReference?, hlead]
    · rfl
    · rintro rest heq
      rw [(List.cons.inj heq).1] at hbrace
      exact hbrace List.mem_cons_self

theorem envReference?_braces {name : Text} (h : isIdentifier name = true) (t : Text) :
    envReference? ('{' :: (name ++ '}' :: t)) = some (name, name.length + 2) := by
  have hclose : Text.isWordChar '}' = false := by decide +kernel
  have hname : leadingName? (name ++ '}' :: t) = some name := by
    rw [leadingName?_append h, List.takeWhile_cons_of_neg (by simp [hclose]), List.append_nil]
  have hread : envReference? ('{' :: (name ++ '}' :: t)) =
      (leadingName? (name ++ '}' :: t)).bind fun name' =>
        if ((name ++ '}' :: t).drop name'.length).head? = some '}' then
          some (name', name'.length + 2) else none := rfl
  rw [hread, hname, Option.bind_some, List.drop_left, List.head?_cons, if_pos rfl]

/-- A text with each double quote behind a backtick. -/
def ticked (t : Text) : Text := t.flatMap fun c => if c = '"' then ['\x60', '"'] else [c]

theorem replace_eq_ticked (t : Text) : replace "\"" "`\"" t = ticked t := replace_singleton '"' _ t

theorem ticked_append (s t : Text) : ticked (s ++ t) = ticked s ++ ticked t := List.flatMap_append

theorem ticked_of_notMem {t : Text} (h : '"' ∉ t) : ticked t = t := by
  induction t with
  | nil => rfl
  | cons c t ih =>
    rw [List.mem_cons, not_or] at h
    rw [ticked, List.flatMap_cons, if_neg (Ne.symm h.1), List.singleton_append]
    exact congrArg _ (ih h.2)

theorem ticked_envRead {name : Text} (h : ∀ c ∈ name, Text.isWordChar c = true) :
    ticked (envRead name) = envRead name := by
  refine ticked_of_notMem ?_
  have hquote := notMem_of_isWordChar h (c := '"') (by decide)
  simp [envRead_eq, hquote]

/-! ## Items without their backslashes -/

/-- What is left of an item when quotes are taken off: a backslash goes in front of a quote or
another backslash only. -/
def ValueItem.value : ValueItem → Text
  | plain c => [c]
  | escaped c => if c = '"' ∨ c = '\\' then [c] else ['\\', c]
  | reference name true => '$' :: '{' :: (name ++ ['}'])
  | reference name false => '$' :: name

/-- What is left of some items. -/
def valuesText (items : List ValueItem) : Text := items.flatMap ValueItem.value

theorem valuesText_cons (i : ValueItem) (items : List ValueItem) :
    valuesText (i :: items) = i.value ++ valuesText items :=
  List.flatMap_cons

theorem SpellsValue.insideDouble {items : List ValueItem} {t : Text} (h : SpellsValue items t) :
    InsideDouble t := by
  induction h with
  | nil => exact .nil
  | plain hquote hslash _ _ ih => exact .char hquote hslash ih
  | escaped c _ ih => exact .pair c ih
  | @name name items t hname _ _ ih =>
    have hfree {c : Char} := notMem_of_isWordChar (c := c) (isWordChar_of_isIdentifier hname)
    exact .append (s := '$' :: name) (by simpa using hfree (by decide))
      (by simpa using hfree (by decide)) ih
  | @braces name items t hname _ ih =>
    have hfree {c : Char} := notMem_of_isWordChar (c := c) (isWordChar_of_isIdentifier hname)
    have hsplit : '$' :: '{' :: (name ++ '}' :: t) = ('$' :: '{' :: (name ++ ['}'])) ++ t := by simp
    rw [hsplit]
    exact .append (by simpa using hfree (by decide)) (by simpa using hfree (by decide)) ih

/-- One pass over the backslashes leaves the values of the items. -/
theorem SpellsValue.unescape_eq {items : List ValueItem} {t : Text} (h : SpellsValue items t) :
    unescape t = valuesText items := by
  induction h with
  | nil => rfl
  | plain _ hslash _ _ ih =>
    rw [unescape_cons hslash, ih]
    rfl
  | escaped c _ ih =>
    rw [valuesText_cons, ValueItem.value, ← ih]
    by_cases hquote : c = '"'
    · rw [hquote]
      rfl
    by_cases hslash : c = '\\'
    · rw [hslash, if_pos (.inr rfl), unescape]
      rfl
    · rw [unescape_pair hquote hslash, if_neg (by simp [hquote, hslash])]
      rfl
  | @name name items t hname _ _ ih =>
    have hfree := notMem_of_isWordChar (c := '\\') (isWordChar_of_isIdentifier hname) (by decide)
    rw [valuesText_cons, ← ih]
    exact unescape_append (s := '$' :: name) (by simpa using hfree) t
  | @braces name items t hname _ ih =>
    have hfree := notMem_of_isWordChar (c := '\\') (isWordChar_of_isIdentifier hname) (by decide)
    have hsplit : '$' :: '{' :: (name ++ '}' :: t) = ('$' :: '{' :: (name ++ ['}'])) ++ t := by simp
    rw [hsplit, valuesText_cons, ← ih]
    exact unescape_append (by simpa using hfree) t

/-! ## Items that are misread -/

/-- Whether the items start with a word character. -/
def startsWord : List ValueItem → Bool
  | .plain c :: _ => Text.isWordChar c
  | _ => false

/-- Whether an item in front of others changes its meaning: a dollar keeps its backslash, and may
become a reference; a name without braces takes in the word characters behind it. -/
def ValueItem.isMisread : ValueItem → List ValueItem → Bool
  | escaped c, _ => c == '$'
  | reference _ false, rest => startsWord rest
  | _, _ => false

theorem takeWhile_valuesText_eq_nil_iff (items : List ValueItem) :
    (valuesText items).takeWhile Text.isWordChar = [] ↔ startsWord items = false := by
  have hsigns : Text.isWordChar '"' = false ∧ Text.isWordChar '\\' = false ∧
      Text.isWordChar '$' = false := by decide +kernel
  match items with
  | [] => exact ⟨fun _ => rfl, fun _ => rfl⟩
  | .plain c :: items =>
    rw [valuesText_cons, ValueItem.value, List.singleton_append, startsWord]
    cases hc : Text.isWordChar c <;> simp [hc]
  | .escaped c :: items =>
    rw [valuesText_cons, ValueItem.value, startsWord]
    · split
      · rename_i hc
        rcases hc with rfl | rfl <;> simp [hsigns]
      · simp [hsigns]
    · rintro _ _ heq
      cases heq
  | .reference name true :: items => simp [valuesText_cons, ValueItem.value, startsWord, hsigns]
  | .reference name false :: items => simp [valuesText_cons, ValueItem.value, startsWord, hsigns]

/-- What PowerShell reads from the values of items, if references are written as reads and quotes
behind backticks. -/
def writtenParts? (items : List ValueItem) : Option (List (Part Text)) :=
  expandableFrom? 0 (ticked (expandReferences 0 (valuesText items)) ++ ['"'])

/-- A read of the environment in front of values is read as the variable. -/
theorem expandable_envRead_values {name : Text} (h : ∀ c ∈ name, Text.isWordChar c = true)
    (t : Text) : expandableFrom? 0 (ticked (envRead name ++ t) ++ ['"']) =
      (expandableFrom? 0 (ticked t ++ ['"'])).map (.hole name :: ·) := by
  rw [ticked_append, ticked_envRead h, List.append_assoc,
    expandable_envRead (notMem_of_isWordChar h (by decide))]

/-- A character in front of values stands for itself. -/
theorem expandable_char_values {c : Char} (htick : c ≠ '\x60') (hdollar : c ≠ '$') (t : Text) :
    expandableFrom? 0 (ticked (expandReferences 0 (c :: t)) ++ ['"']) =
      (expandableFrom? 0 (ticked (expandReferences 0 t) ++ ['"'])).map (.char c :: ·) := by
  have hexpand := expandReferences_append (s := [c]) (by simpa using Ne.symm hdollar) t
  rw [List.singleton_append] at hexpand
  rw [hexpand, ticked_append, List.append_assoc]
  by_cases hquote : c = '"'
  · subst hquote
    exact expandable_tick '"' _
  · rw [ticked_of_notMem (t := [c]) (by simpa using Ne.symm hquote)]
    exact expandable_cons hquote htick hdollar _

/-- A name without braces is read with the word characters behind it. -/
theorem writtenParts?_name {name : Text} (h : isIdentifier name = true) (items : List ValueItem) :
    let word := (valuesText items).takeWhile Text.isWordChar
    writtenParts? (.reference name false :: items) =
      (expandableFrom? 0 (ticked (expandReferences 0 ((valuesText items).drop word.length)) ++
        ['"'])).map (.hole (name ++ word) :: ·) := by
  intro word
  have hword : ∀ c ∈ name ++ word, Text.isWordChar c = true := by
    intro c hc
    rcases List.mem_append.mp hc with hc | hc
    · exact isWordChar_of_isIdentifier h c hc
    · exact List.all_eq_true.mp List.all_takeWhile c hc
  have hexpand : expandReferences 0 (valuesText (.reference name false :: items)) =
      envRead (name ++ word) ++ expandReferences 0 ((valuesText items).drop word.length) := by
    rw [valuesText_cons, ValueItem.value, List.cons_append,
      expandReferences_dollar (envReference?_name h (valuesText items)), List.length_append,
      List.drop_length_add_append]
  rw [writtenParts?, hexpand, expandable_envRead_values hword]

/-- An item that is not misread is read as what it stands for. -/
theorem writtenParts?_of_not_misread {i : ValueItem} {items : List ValueItem} {t : Text}
    (h : SpellsValue (i :: items) t) (htick : '\x60' ∉ i.value)
    (hread : i.isMisread items = false) :
    writtenParts? (i :: items) = (writtenParts? items).map (i.parts ++ ·) := by
  cases h with
  | plain _ _ hdollar _ =>
    exact expandable_char_values (by simpa [ValueItem.value, eq_comm] using htick) hdollar _
  | escaped c _ =>
    have hdollar : c ≠ '$' := by simpa [ValueItem.isMisread] using hread
    rw [writtenParts?, valuesText_cons]
    by_cases hpair : c = '"' ∨ c = '\\'
    · have hne : c ≠ '\x60' := by rcases hpair with rfl | rfl <;> decide
      have hparts : (ValueItem.escaped c).parts = [.char c] := if_pos (by tauto)
      rw [ValueItem.value, if_pos hpair, List.singleton_append, expandable_char_values hne hdollar,
        hparts]
      rfl
    · have hparts : (ValueItem.escaped c).parts = [.char '\\', .char c] := if_neg (by tauto)
      rw [ValueItem.value, if_neg hpair] at htick ⊢
      have hne : c ≠ '\x60' := by
        rintro rfl
        simp at htick
      rw [List.cons_append, expandable_char_values (by decide) (by decide), List.singleton_append,
        expandable_char_values hne hdollar, hparts, Option.map_map]
      rfl
  | @name name _ t hname _ _ =>
    have hword := (takeWhile_valuesText_eq_nil_iff items).mpr hread
    rw [writtenParts?_name hname, hword, List.append_nil]
    rfl
  | @braces name _ t hname _ =>
    have hvalue : valuesText (.reference name true :: items) =
        '$' :: '{' :: (name ++ '}' :: valuesText items) := by
      simp [valuesText_cons, ValueItem.value]
    have hdrop : ('{' :: (name ++ '}' :: valuesText items)).drop (name.length + 2) =
        valuesText items := by
      show (name ++ '}' :: valuesText items).drop (name.length + 1) = _
      rw [← List.drop_drop, List.drop_left]
      rfl
    rw [writtenParts?, hvalue, expandReferences_dollar (envReference?_braces hname _), hdrop,
      expandable_envRead_values (isWordChar_of_isIdentifier hname)]
    rfl

/-- An item that is misread is read as something else. -/
theorem writtenParts?_of_misread {i : ValueItem} {items : List ValueItem} {t : Text}
    (h : SpellsValue (i :: items) t) (hread : i.isMisread items = true) (ps : List (Part Text)) :
    writtenParts? (i :: items) ≠ some (i.parts ++ ps) := by
  cases h with
  | plain _ _ _ _ => cases hread
  | escaped c _ =>
    obtain rfl : c = '$' := by simpa [ValueItem.isMisread] using hread
    have hvalue : valuesText (.escaped '$' :: items) = '\\' :: '$' :: valuesText items := rfl
    rw [writtenParts?, hvalue, expandable_char_values (by decide) (by decide)]
    intro heq
    obtain ⟨qs, -, hqs⟩ := Option.map_eq_some_iff.mp heq
    cases (List.cons.inj hqs).1
  | @name name _ t hname _ _ =>
    have hword : (valuesText items).takeWhile Text.isWordChar ≠ [] := by
      rw [ne_eq, takeWhile_valuesText_eq_nil_iff, Bool.not_eq_false]
      exact hread
    rw [writtenParts?_name hname]
    intro heq
    obtain ⟨qs, -, hqs⟩ := Option.map_eq_some_iff.mp heq
    have hname := Part.hole.inj (List.cons.inj hqs).1
    exact hword (List.append_right_eq_self.mp hname)
  | braces _ _ => cases hread

theorem SpellsValue.tail {i : ValueItem} {items : List ValueItem} {t : Text}
    (h : SpellsValue (i :: items) t) : ∃ t', SpellsValue items t' := by
  cases h with
  | plain _ _ _ h => exact ⟨_, h⟩
  | escaped _ h => exact ⟨_, h⟩
  | name _ _ h => exact ⟨_, h⟩
  | braces _ h => exact ⟨_, h⟩

/-- The items are read as what they stand for exactly if none of them is misread. -/
theorem writtenParts?_eq_iff {items : List ValueItem} {t : Text} (h : SpellsValue items t)
    (htick : '\x60' ∉ valuesText items) :
    writtenParts? items = some (items.flatMap ValueItem.parts) ↔
      ∀ i rest, i :: rest <:+ items → i.isMisread rest = false := by
  induction items generalizing t with
  | nil => simp [writtenParts?, valuesText, expandReferences, ticked, expandableFrom?]
  | cons i items ih =>
    obtain ⟨t', ht'⟩ := h.tail
    rw [valuesText_cons, List.mem_append, not_or] at htick
    have hsplit : (∀ j rest, j :: rest <:+ i :: items → j.isMisread rest = false) ↔
        i.isMisread items = false ∧ ∀ j rest, j :: rest <:+ items → j.isMisread rest = false := by
      simp only [List.suffix_cons_iff, List.cons.injEq]
      constructor
      · intro hall
        exact ⟨hall i items (.inl ⟨rfl, rfl⟩), fun j rest hj => hall j rest (.inr hj)⟩
      · rintro ⟨hfirst, hrest⟩ j rest (⟨rfl, rfl⟩ | hj)
        · exact hfirst
        · exact hrest j rest hj
    rw [hsplit, ← ih ht' htick.2, List.flatMap_cons]
    cases hread : i.isMisread items with
    | true => simpa using writtenParts?_of_misread h hread _
    | false =>
      rw [writtenParts?_of_not_misread h htick.1 hread, Option.map_eq_some_iff]
      simp

/-! ## Values without a dollar -/

theorem ValueItem.of_notMem_dollar {i : ValueItem} (h : '$' ∉ i.value) :
    i.parts = i.value.map .char ∧ ∀ rest, i.isMisread rest = false := by
  match i with
  | plain c => exact ⟨rfl, fun _ => rfl⟩
  | escaped c =>
    have hdollar : c ≠ '$' := by
      rintro rfl
      exact h (by simp [value])
    refine ⟨?_, fun _ => by simpa [isMisread] using hdollar⟩
    rw [parts, value]
    split
    · rename_i hc
      rw [if_pos ((or_assoc.mpr hc).resolve_right hdollar)]
      rfl
    · rename_i hc
      rw [if_neg fun hpair => hc (or_assoc.mp (.inl hpair))]
      rfl
  | reference name true => exact absurd List.mem_cons_self h
  | reference name false => exact absurd List.mem_cons_self h

/-- Without a dollar there is no reference, and what is left of the items is what they stand for. -/
theorem parts_of_notMem_dollar {items : List ValueItem} (h : '$' ∉ valuesText items) :
    items.flatMap ValueItem.parts = (valuesText items).map .char ∧
      ∀ i rest, i :: rest <:+ items → i.isMisread rest = false := by
  have hitem : ∀ i ∈ items, '$' ∉ i.value :=
    fun i hi hmem => h (List.mem_flatMap.mpr ⟨i, hi, hmem⟩)
  constructor
  · rw [valuesText, List.map_flatMap]
    exact List.flatMap_congr fun i hi => (ValueItem.of_notMem_dollar (hitem i hi)).1
  · intro i rest hsuffix
    exact (ValueItem.of_notMem_dollar (hitem i (hsuffix.subset List.mem_cons_self))).2 rest

/-! ## Values that run a command -/

theorem occursIn_append_of_notMem {s : Text} (h : '$' ∉ s) (t : Text) :
    occursIn ['$', '('] (s ++ t) = occursIn ['$', '('] t := by
  induction s with
  | nil => rfl
  | cons c s ih =>
    rw [List.mem_cons, not_or] at h
    have hfront : List.isPrefixOf ['$', '('] (c :: (s ++ t)) = false := by
      simp [List.isPrefixOf, h.1]
    rw [List.cons_append, occursIn, hfront, Bool.false_or, ih h.2]

/-- A dollar in front of something else than a parenthesis starts no command. -/
theorem occursIn_dollar {c : Char} (h : c ≠ '(') (t : Text) :
    occursIn ['$', '('] ('$' :: c :: t) = occursIn ['$', '('] (c :: t) := by
  have hfront : List.isPrefixOf ['$', '('] ('$' :: c :: t) = false := by
    simp [List.isPrefixOf, Ne.symm h]
  rw [occursIn, hfront, Bool.false_or]

/-- Only a dollar behind a backslash can stand in front of a parenthesis. -/
theorem SpellsValue.escaped_mem_of_occursIn {items : List ValueItem} {t : Text}
    (h : SpellsValue items t) (hoccurs : occursIn ['$', '('] (valuesText items) = true) :
    .escaped '$' ∈ items := by
  induction h with
  | nil => cases hoccurs
  | @plain c items t _ _ hdollar _ ih =>
    have hskip := occursIn_append_of_notMem (s := [c]) (by simpa using Ne.symm hdollar)
      (valuesText items)
    exact List.mem_cons_of_mem _ (ih (hskip.symm.trans hoccurs))
  | @escaped c items t _ ih =>
    by_cases hdollar : c = '$'
    · rw [hdollar]
      exact List.mem_cons_self
    · have hvalue : '$' ∉ (ValueItem.escaped c).value := by
        rw [ValueItem.value]
        split <;> simp [Ne.symm hdollar]
      rw [valuesText_cons, occursIn_append_of_notMem hvalue] at hoccurs
      exact List.mem_cons_of_mem _ (ih hoccurs)
  | @name name items t hname _ _ ih =>
    have hfree {c : Char} := notMem_of_isWordChar (c := c) (isWordChar_of_isIdentifier hname)
    have hdollar : '$' ∉ name := hfree (by decide)
    have hparen : '(' ∉ name := hfree (by decide)
    cases name with
    | nil => cases hname
    | cons c cs =>
      have hne : c ≠ '(' := fun heq => hparen (heq ▸ List.mem_cons_self)
      have hskip := (occursIn_dollar hne (cs ++ valuesText items)).trans
        (occursIn_append_of_notMem hdollar (valuesText items))
      exact List.mem_cons_of_mem _ (ih (hskip.symm.trans hoccurs))
  | @braces name items t hname _ ih =>
    have hfree : '$' ∉ name :=
      notMem_of_isWordChar (isWordChar_of_isIdentifier hname) (by decide)
    have hskip := (occursIn_dollar (c := '{') (by decide)
      ((name ++ ['}']) ++ valuesText items)).trans
      (occursIn_append_of_notMem (s := '{' :: (name ++ ['}'])) (by simpa using hfree)
        (valuesText items))
    exact List.mem_cons_of_mem _ (ih (hskip.symm.trans hoccurs))

/-! ## Right sides of assignments -/

section

variable {items : List ValueItem} {raw : Text}

theorem ShellReads.exists_spells (h : ShellReads items raw) : ∃ t, SpellsValue items t := by
  cases h with
  | quoted h => exact ⟨_, h⟩
  | bare _ h => exact ⟨_, h⟩

/-- Without its quotes, a right side is what is left of its items. -/
theorem ShellReads.unquote_eq (h : ShellReads items raw) : unquote raw = valuesText items := by
  cases h with
  | quoted h => rw [unquote_of_insideDouble h.insideDouble, h.unescape_eq]
  | bare hplain h =>
    have hslash : '\\' ∉ raw := fun hmem => (hplain _ hmem).2.2 rfl
    have hraw := unescape_append hslash []
    rw [List.append_nil, unescape, List.append_nil] at hraw
    rw [← h.unescape_eq, hraw]
    refine unquote_of_not_enclosed fun q henclosed => ?_
    have hmem : q.char ∈ raw := by
      rw [enclosedBy_iff.mp henclosed]
      exact List.mem_cons_self
    cases q with
    | single => exact (hplain _ hmem).1 rfl
    | double => exact (hplain _ hmem).2.1 rfl

theorem ShellReads.head?_ne (h : ShellReads items raw) : raw.head? ≠ some '\'' := by
  cases h with
  | quoted h => simp
  | bare hplain _ => exact fun hhead => (hplain _ (List.mem_of_mem_head? hhead)).1 rfl

theorem ShellReads.mem_of_mem (h : ShellReads items raw) {c : Char} (hc : c ∈ valuesText items) :
    c ∈ raw := by
  cases h with
  | quoted h =>
    rw [← h.unescape_eq] at hc
    simp [mem_of_mem_unescape hc]
  | bare _ h =>
    rw [← h.unescape_eq] at hc
    exact mem_of_mem_unescape hc

/-- What is written for a right side: a literal if nothing is left of a dollar, nothing if what is
left may run a command, and else a string with reads of the environment. -/
theorem ShellReads.envValue?_eq (h : ShellReads items raw) : envValue? raw =
    if '$' ∈ valuesText items then
      if occursIn ['$', '('] (valuesText items) = true ∨ '\x60' ∈ valuesText items then none
      else some ('"' :: (ticked (expandReferences 0 (valuesText items)) ++ ['"']))
    else some (singleQuoted (valuesText items)) := by
  have hhead := h.head?_ne
  rw [envValue?, h.unquote_eq]
  by_cases hdollar : '$' ∈ valuesText items
  · rw [if_pos hdollar]
    simp only [hhead, hdollar, List.contains_eq_mem, decide_true, Bool.not_true, Bool.false_eq_true,
      or_self, if_false, Bool.or_eq_true, decide_eq_true_eq, replace_eq_ticked]
    rfl
  · rw [if_neg hdollar]
    simp only [hdollar, List.contains_eq_mem, decide_false, Bool.not_false, or_true, if_true]

theorem powerShellParts?_singleQuoted (t : Text) :
    powerShellParts? (singleQuoted t) = some (t.map .char) := by
  have hread : readLiteral? (singleQuoted t) = some (t, []) :=
    readLiteral?_eq_some_iff.mpr ⟨by simp, by simp⟩
  rw [powerShellParts?, hread]
  rw [singleQuoted_eq_double]
  rintro rest heq
  cases heq

/-- A string has the value of some items in every environment exactly if it is read as what they
stand for. -/
theorem powerShellValue?_eq_iff (items : List ValueItem) (text : Text) :
    (∀ env, powerShellValue? env text = some (shellValue env items)) ↔
      powerShellParts? text = some (items.flatMap ValueItem.parts) := by
  constructor
  · intro hall
    cases hparts : powerShellParts? text with
    | none =>
      have hnone := hall fun _ => []
      rw [powerShellValue?, hparts] at hnone
      cases hnone
    | some ps =>
      refine congrArg some (eq_of_fillParts fun env => ?_)
      have henv := hall env
      rw [powerShellValue?, hparts] at henv
      exact Option.some.inj henv
  · intro hparts env
    rw [powerShellValue?, hparts]
    rfl

end

/-- **Values of exported variables.** For every right side of an assignment in one pair of double
quotes, or without quotes and backslashes, in which every dollar stands behind a backslash or in
front of a name: nothing is written for it only if it has a backtick or a dollar behind a backslash,
and what is written has in every environment the value that the shell gives exactly if no item is
misread: no dollar stands behind a backslash, and no name without braces stands in front of a word
character of another script. -/
theorem exported_value_kept_iff {raw : Text} {items : List ValueItem} (h : ShellReads items raw) :
    (envValue? raw = none → '\x60' ∈ raw ∨ .escaped '$' ∈ items) ∧
      ∀ text, envValue? raw = some text →
        ((∀ env, powerShellValue? env text = some (shellValue env items)) ↔
          ∀ i rest, i :: rest <:+ items → i.isMisread rest = false) := by
  obtain ⟨t, hspells⟩ := h.exists_spells
  rw [h.envValue?_eq]
  split
  next hdollar =>
    split
    next hrefused =>
      refine ⟨fun _ => ?_, by simp⟩
      rcases hrefused with hoccurs | htick
      · exact .inr (hspells.escaped_mem_of_occursIn hoccurs)
      · exact .inl (h.mem_of_mem htick)
    next hrefused =>
      rw [not_or] at hrefused
      refine ⟨by simp, fun text htext => ?_⟩
      obtain rfl := Option.some.inj htext
      rw [powerShellValue?_eq_iff]
      exact writtenParts?_eq_iff hspells hrefused.2
  next hdollar =>
    obtain ⟨hparts, hread⟩ := parts_of_notMem_dollar hdollar
    refine ⟨by simp, fun text htext => ?_⟩
    obtain rfl := Option.some.inj htext
    rw [powerShellValue?_eq_iff, powerShellParts?_singleQuoted, hparts]
    exact ⟨fun _ => hread, fun _ => rfl⟩

/-- A protected quote, a name that a slash ends, a protected backslash in front of a name in braces,
and a backslash that protects nothing. -/
def mixedItems : List ValueItem :=
  [.escaped '"', .reference "HOME" false, .plain '/', .escaped '\\', .reference "X1" true,
    .escaped 'q']

theorem exported_value_kept_mixedItems :
    let raw : Text := "\"\\\"$HOME/\\\\$\x7bX1\x7d\\q\""
    let text : Text := "\"`\"$\x7benv:HOME\x7d/\\$\x7benv:X1\x7d\\q\""
    ShellReads mixedItems raw ∧ envValue? raw = some text ∧
      ∀ env, powerShellValue? env text = some (shellValue env mixedItems) := by
  intro raw text
  have hspells : SpellsValue mixedItems "\\\"$HOME/\\\\$\x7bX1\x7d\\q" :=
    .escaped '"' (@SpellsValue.name "HOME" _ _ (by decide) (by decide) (.plain (by decide)
      (by decide) (by decide) (.escaped '\\' (@SpellsValue.braces "X1" _ _ (by decide)
        (.escaped 'q' .nil)))))
  have hreads : ShellReads mixedItems raw := .quoted hspells
  have htext : envValue? raw = some text := by decide +kernel
  refine ⟨hreads, htext, ((exported_value_kept_iff hreads).2 text htext).mpr ?_⟩
  intro i rest hsuffix
  simp only [mixedItems, List.suffix_cons_iff, List.cons.injEq, List.suffix_nil, reduceCtorEq,
    or_false] at hsuffix
  rcases hsuffix with ⟨rfl, rfl⟩ | ⟨rfl, rfl⟩ | ⟨rfl, rfl⟩ | ⟨rfl, rfl⟩ | ⟨rfl, rfl⟩ | ⟨rfl, rfl⟩
  all_goals decide +kernel

/-- **A dollar that loses its protection.** To a shell this value is the text `$HOME`. What is
written for it keeps the backslash and reads the variable. -/
theorem protected_dollar_read :
    let items : List ValueItem := .escaped '$' :: "HOME".toList.map .plain
    let text : Text := "\"\\$\x7benv:HOME\x7d\""
    ShellReads items "\"\\$HOME\"" ∧ envValue? "\"\\$HOME\"" = some text ∧
      shellValue (fun _ => "/root") items = "$HOME" ∧
      powerShellValue? (fun _ => "/root") text = some "\\/root" := by
  intro items text
  have hspells : SpellsValue items "\\$HOME" :=
    .escaped '$' (.plain (by decide) (by decide) (by decide) (.plain (by decide) (by decide)
      (by decide) (.plain (by decide) (by decide) (by decide) (.plain (by decide) (by decide)
        (by decide) .nil))))
  refine ⟨.quoted hspells, ?_⟩
  decide +kernel

/-- A name takes in the letter of another script behind it. -/
example : envValue? "$HOMEé" = some "\"$\x7benv:HOMEé\x7d\"".toList := by decide +kernel

end CrossShell
