import CrossShell.Proofs.Special.FieldLists
import CrossShell.Proofs.Special.PatternRoles
import CrossShell.Special.Substitution

/-!
# The parts of a substitution

The parts of `s/a/b/g` are written between delimiters, and a delimiter in a part is written behind a
backslash. A backslash takes the next character along, so that a delimiter ends a part unless an odd
number of backslashes stands directly in front of it.

* `isField`, `protectBare`, `writtenFields`: the parts that can be written, and how.
* `splitEscaped_protectBare`: a written field comes out whole, whatever stands behind it.
* `splitEscaped_writtenFields`, `writtenFields_splitEscaped`: reading undoes writing, and writing
  undoes reading.
* `barePlaces`, `length_splitEscaped`: the delimiters that end a part.
* `delimiters_undone`: all of this, and what a script of `sed` substitutes.
-/

namespace CrossShell

/-! ## Fields and how they are written -/

/-- Whether each backslash is followed by a character that it takes along, other than the
delimiter. -/
def isField (delimiter : Char) : Text → Bool
  | [] => true
  | ['\\'] => false
  | '\\' :: c :: cs => c != delimiter && isField delimiter cs
  | _ :: cs => isField delimiter cs

/-- A field with a backslash in front of each bare delimiter. -/
def protectBare (delimiter : Char) : Text → Text
  | [] => []
  | ['\\'] => ['\\']
  | '\\' :: c :: cs => '\\' :: c :: protectBare delimiter cs
  | c :: cs =>
    if c = delimiter then '\\' :: c :: protectBare delimiter cs else c :: protectBare delimiter cs

/-- Fields with delimiters between them. -/
def writtenFields (delimiter : Char) (fields : List Text) : Text :=
  Text.join [delimiter] (fields.map (protectBare delimiter))

section Pieces

variable {d c : Char} {cs : Text}

theorem isField_escaped : isField d ('\\' :: c :: cs) = (c != d && isField d cs) := by
  rw [isField]

theorem isField_bare (hc : c ≠ '\\') : isField d (c :: cs) = isField d cs := by
  rw [isField]
  · exact fun h _ => hc h
  · exact fun _ _ h _ => hc h

theorem isField_of_notMem (h : '\\' ∉ cs) : isField d cs = true := by
  induction cs with
  | nil => rfl
  | cons c cs ih =>
    rw [List.mem_cons, not_or] at h
    rw [isField_bare (Ne.symm h.1), ih h.2]

theorem protectBare_escaped : protectBare d ('\\' :: c :: cs) = '\\' :: c :: protectBare d cs := by
  rw [protectBare]

theorem protectBare_bare (hc : c ≠ '\\') : protectBare d (c :: cs) =
    if c = d then '\\' :: c :: protectBare d cs else c :: protectBare d cs := by
  rw [protectBare]
  · exact fun h _ => hc h
  · exact fun _ _ h _ => hc h

theorem splitEscaped_escaped : splitEscaped d ('\\' :: c :: cs) =
    if c = d then consFirst c (splitEscaped d cs)
    else consFirst '\\' (consFirst c (splitEscaped d cs)) := by
  rw [splitEscaped]

theorem splitEscaped_bare (hc : c ≠ '\\') : splitEscaped d (c :: cs) =
    if c = d then [] :: splitEscaped d cs else consFirst c (splitEscaped d cs) := by
  rw [splitEscaped]
  · exact fun h _ => hc h
  · exact fun _ _ h _ => hc h

end Pieces

/-! ## Reading undoes writing -/

/-- A field that is written in front of something goes to the first part, as it was. -/
theorem splitEscaped_protectBare {d : Char} {field : Text} (h : isField d field = true)
    (rest : Text) :
    splitEscaped d (protectBare d field ++ rest) = field.foldr consFirst (splitEscaped d rest) := by
  induction field using patternInduction with
  | nil => rfl
  | lone => cases h
  | escaped c cs ih =>
    rw [isField_escaped, Bool.and_eq_true, bne_iff_ne] at h
    rw [protectBare_escaped, List.cons_append, List.cons_append, splitEscaped_escaped,
      if_neg h.1, ih h.2]
    rfl
  | bare c cs hc ih =>
    rw [isField_bare hc] at h
    rw [protectBare_bare hc]
    by_cases hcd : c = d
    · rw [if_pos hcd, List.cons_append, List.cons_append, splitEscaped_escaped, if_pos hcd, ih h]
      rfl
    · rw [if_neg hcd, List.cons_append, splitEscaped_bare hc, if_neg hcd, ih h]
      rfl

theorem foldr_consFirst (front part : Text) (parts : List Text) :
    front.foldr consFirst (part :: parts) = (front ++ part) :: parts := by
  induction front with
  | nil => rfl
  | cons c front ih => rw [List.foldr_cons, ih, consFirst, List.cons_append]

theorem length_foldr_consFirst (front : Text) {parts : List Text} (hne : parts ≠ []) :
    (front.foldr consFirst parts).length = parts.length := by
  obtain ⟨part, rest, rfl⟩ := List.exists_cons_of_ne_nil hne
  rw [foldr_consFirst]
  rfl

/-- The fields come out as they were before they were written. -/
theorem splitEscaped_writtenFields {d : Char} (hd : d ≠ '\\') {fields : List Text}
    (hne : fields ≠ []) (hfields : ∀ field ∈ fields, isField d field = true) :
    splitEscaped d (writtenFields d fields) = fields := by
  induction fields with
  | nil => exact absurd rfl hne
  | cons field fields ih =>
    have hfield := hfields field List.mem_cons_self
    cases fields with
    | nil =>
      have hlast := splitEscaped_protectBare hfield []
      rw [List.append_nil] at hlast
      show splitEscaped d (protectBare d field) = _
      rw [hlast, splitEscaped, foldr_consFirst, List.append_nil]
    | cons next fields =>
      have hrest := ih (List.cons_ne_nil _ _) fun f hf => hfields f (List.mem_cons_of_mem _ hf)
      have hwritten : writtenFields d (field :: next :: fields) =
          protectBare d field ++ d :: writtenFields d (next :: fields) :=
        List.append_assoc _ _ _
      rw [hwritten, splitEscaped_protectBare hfield, splitEscaped_bare hd, if_pos rfl, hrest,
        foldr_consFirst, List.append_nil]

/-! ## Writing undoes reading -/

theorem consFirst_eq {parts : List Text} (hne : parts ≠ []) (c : Char) : ∃ part rest,
    parts = part :: rest ∧ consFirst c parts = (c :: part) :: rest := by
  obtain ⟨part, rest, rfl⟩ := List.exists_cons_of_ne_nil hne
  exact ⟨part, rest, rfl, rfl⟩

theorem splitEscaped_ne_nil (d : Char) (t : Text) : splitEscaped d t ≠ [] := by
  have hcons (c : Char) (parts : List Text) : consFirst c parts ≠ [] := by
    cases parts <;> exact List.cons_ne_nil _ _
  induction t using patternInduction with
  | nil => exact List.cons_ne_nil _ _
  | lone => exact List.cons_ne_nil _ _
  | escaped c cs ih =>
    rw [splitEscaped_escaped]
    split <;> exact hcons _ _
  | bare c cs hc ih =>
    rw [splitEscaped_bare hc]
    split
    · exact List.cons_ne_nil _ _
    · exact hcons _ _

/-- The parts of a text, written again. -/
theorem writtenFields_splitEscaped {d : Char} (hd : d ≠ '\\') (t : Text) :
    writtenFields d (splitEscaped d t) = t := by
  induction t using patternInduction with
  | nil => rfl
  | lone => rfl
  | escaped c cs ih =>
    obtain ⟨part, rest, hsplit, hcons⟩ := consFirst_eq (splitEscaped_ne_nil d cs) c
    rw [hsplit, writtenFields, List.map_cons] at ih
    rw [splitEscaped_escaped, hcons]
    by_cases hcd : c = d
    · rw [if_pos hcd, writtenFields, List.map_cons, protectBare_bare (hcd ▸ hd), if_pos hcd,
        Text.join_cons_cons, Text.join_cons_cons, ih]
    · rw [if_neg hcd, consFirst, writtenFields, List.map_cons, protectBare_escaped,
        Text.join_cons_cons, Text.join_cons_cons, ih]
  | bare c cs hc ih =>
    rw [splitEscaped_bare hc]
    by_cases hcd : c = d
    · rw [if_pos hcd, writtenFields, List.map_cons, protectBare,
        Text.join_cons_nil _ (by simpa using splitEscaped_ne_nil d cs)]
      exact congrArg₂ _ hcd.symm ih
    · obtain ⟨part, rest, hsplit, hcons⟩ := consFirst_eq (splitEscaped_ne_nil d cs) c
      rw [hsplit, writtenFields, List.map_cons] at ih
      rw [if_neg hcd, hcons, writtenFields, List.map_cons, protectBare_bare hc, if_neg hcd,
        Text.join_cons_cons, ih]

theorem isField_of_mem_foldr {d : Char} (front : Text) {parts : List Text} (hne : parts ≠ [])
    (hfront : ∀ part, isField d part = true → isField d (front ++ part) = true)
    (hparts : ∀ field ∈ parts.dropLast, isField d field = true) :
    ∀ field ∈ (front.foldr consFirst parts).dropLast, isField d field = true := by
  obtain ⟨part, rest, rfl⟩ := List.exists_cons_of_ne_nil hne
  rw [foldr_consFirst]
  cases rest with
  | nil => exact fun _ h => nomatch h
  | cons next rest =>
    rw [List.dropLast_cons_cons, List.forall_mem_cons] at hparts ⊢
    exact ⟨hfront part hparts.1, hparts.2⟩

/-- Every part but the last is a field: only the last can end in a lone backslash. -/
theorem isField_of_mem_dropLast {d : Char} (hd : d ≠ '\\') (t : Text) :
    ∀ field ∈ (splitEscaped d t).dropLast, isField d field = true := by
  induction t using patternInduction with
  | nil => exact fun _ h => nomatch h
  | lone => exact fun _ h => nomatch h
  | escaped c cs ih =>
    rw [splitEscaped_escaped]
    have hne := splitEscaped_ne_nil d cs
    by_cases hcd : c = d
    · rw [if_pos hcd]
      exact isField_of_mem_foldr [c] hne (fun part h => by
        rwa [List.singleton_append, isField_bare (hcd ▸ hd)]) ih
    · rw [if_neg hcd]
      exact isField_of_mem_foldr ['\\', c] hne (fun part h => by
        rw [List.cons_append, List.singleton_append, isField_escaped, h, bne_iff_ne.mpr hcd]
        rfl) ih
  | bare c cs hc ih =>
    rw [splitEscaped_bare hc]
    have hne := splitEscaped_ne_nil d cs
    by_cases hcd : c = d
    · rw [if_pos hcd, List.dropLast_cons_of_ne_nil hne, List.forall_mem_cons]
      exact ⟨rfl, ih⟩
    · rw [if_neg hcd]
      exact isField_of_mem_foldr [c] hne (fun part h => by
        rwa [List.singleton_append, isField_bare hc]) ih

/-! ## Delimiters that end a part -/

/-- The places of the delimiters that no backslash takes along: the number of backslashes directly
in front of them is even. -/
def barePlaces (delimiter : Char) (t : Text) : List Nat :=
  (List.range t.length).filter fun i =>
    t[i]? == some delimiter && slashesAtEnd (t.take i) % 2 == 0

theorem barePlaces_append {s : Text} (hs : slashesAtEnd s % 2 = 0) (d : Char) (t : Text) :
    barePlaces d (s ++ t) = barePlaces d s ++ (barePlaces d t).map (s.length + ·) := by
  rw [barePlaces, List.length_append, List.range_add, List.filter_append, List.filter_map]
  refine congrArg₂ _ (List.filter_congr fun i hi => ?_)
    (congrArg (List.map _) (List.filter_congr fun i _ => ?_))
  · rw [List.mem_range] at hi
    rw [List.getElem?_append_left hi, List.take_append_of_le_length (Nat.le_of_lt hi)]
  · rw [Function.comp_apply, List.getElem?_append_right (Nat.le_add_right _ _),
      Nat.add_sub_cancel_left, List.take_length_add_append, slashesAtEnd_append_mod hs]

/-- There is one part more than there are delimiters that no backslash takes along. -/
theorem length_splitEscaped {d : Char} (hd : d ≠ '\\') (t : Text) :
    (splitEscaped d t).length = (barePlaces d t).length + 1 := by
  induction t using patternInduction with
  | nil => rfl
  | lone =>
    have hplaces : barePlaces d ['\\'] = [] := by simp [barePlaces, Ne.symm hd]
    rw [hplaces]
    rfl
  | escaped c cs ih =>
    have hpair : barePlaces d ['\\', c] = [] := by
      simp [barePlaces, List.range_succ, Ne.symm hd, slashesAtEnd]
    have hplaces := barePlaces_append (slashesAtEnd_pair c) d cs
    have hne := splitEscaped_ne_nil d cs
    rw [hpair, List.nil_append] at hplaces
    rw [splitEscaped_escaped, show '\\' :: c :: cs = ['\\', c] ++ cs from rfl, hplaces,
      List.length_map, ← ih]
    split
    · exact length_foldr_consFirst [c] hne
    · exact length_foldr_consFirst ['\\', c] hne
  | bare c cs hc ih =>
    have hplaces := barePlaces_append (slashesAtEnd_bare hc) d cs
    rw [splitEscaped_bare hc, show c :: cs = [c] ++ cs from rfl, hplaces, List.length_append,
      List.length_map]
    by_cases hcd : c = d
    · have hplace : barePlaces d [c] = [0] := by simp [barePlaces, hcd, slashesAtEnd]
      rw [if_pos hcd, hplace, List.length_cons, ih, List.length_singleton, Nat.add_comm 1]
    · have hplace : barePlaces d [c] = [] := by simp [barePlaces, hcd]
      rw [if_neg hcd, hplace, List.length_nil, Nat.zero_add, ← ih]
      exact length_foldr_consFirst [c] (splitEscaped_ne_nil d cs)

/-! ## Scripts -/

namespace Substitution

theorem ne_slash_of_isDelimiter {c : Char} (h : isDelimiter c = true) : c ≠ '\\' := by
  rintro rfl
  simp [isDelimiter] at h

/-- A script of `sed` that is written with a delimiter. -/
def script (delimiter : Char) (pattern replacement flags : Text) : Text :=
  's' :: delimiter :: writtenFields delimiter [pattern, replacement, flags]

/-- The substitution with some flags. -/
def ofParts (pattern replacement flags : Text) : Substitution :=
  ⟨pattern, replacement, 'g' ∈ flags, 'i' ∈ flags ∨ 'I' ∈ flags⟩

/-- The substitution of three parts, if all flags are known. -/
theorem ofScript?_of_split {delimiter : Char} {rest pattern replacement flags : Text}
    (hdelimiter : isDelimiter delimiter = true)
    (hsplit : splitEscaped delimiter rest = [pattern, replacement, flags]) :
    ofScript? ('s' :: delimiter :: rest) =
      if ∀ c ∈ flags, c ∈ ['g', 'i', 'I'] then some (ofParts pattern replacement flags)
      else none := by
  have hflags : (flags.all fun c => c == 'g' || c == 'i' || c == 'I') = true ↔
      ∀ c ∈ flags, c ∈ ['g', 'i', 'I'] := by
    simp [List.all_eq_true, or_assoc]
  simp only [ofScript?, if_pos hdelimiter, hsplit, hflags, ofParts, List.contains_eq_mem,
    Bool.decide_or]

/-- A script makes a substitution exactly if it writes one, with fields and known flags. -/
theorem ofScript?_eq_some_iff {t : Text} {s : Substitution} : ofScript? t = some s ↔
    ∃ delimiter pattern replacement flags, isDelimiter delimiter = true ∧
      isField delimiter pattern = true ∧ isField delimiter replacement = true ∧
      (∀ c ∈ flags, c ∈ ['g', 'i', 'I']) ∧ t = script delimiter pattern replacement flags ∧
      s = ofParts pattern replacement flags := by
  constructor
  · intro h
    obtain ⟨delimiter, rest, rfl, hdelimiter⟩ : ∃ delimiter rest, t = 's' :: delimiter :: rest ∧
        isDelimiter delimiter = true := by
      unfold ofScript? at h
      split at h
      · split at h
        · exact ⟨_, _, rfl, ‹_›⟩
        · cases h
      · cases h
    obtain ⟨pattern, replacement, flags, hsplit⟩ : ∃ pattern replacement flags,
        splitEscaped delimiter rest = [pattern, replacement, flags] := by
      simp only [ofScript?, if_pos hdelimiter] at h
      split at h
      · exact ⟨_, _, _, ‹_›⟩
      · cases h
    rw [ofScript?_of_split hdelimiter hsplit] at h
    have hslash := ne_slash_of_isDelimiter hdelimiter
    have hfields := isField_of_mem_dropLast hslash rest
    have hrest := writtenFields_splitEscaped hslash rest
    rw [hsplit] at hfields hrest
    split at h
    · rename_i hflags
      refine ⟨delimiter, pattern, replacement, flags, hdelimiter, hfields pattern (by simp),
        hfields replacement (by simp), hflags, ?_, (Option.some.inj h).symm⟩
      rw [script, hrest]
    · cases h
  · rintro ⟨delimiter, pattern, replacement, flags, hdelimiter, hpattern, hreplacement, hflags,
      rfl, rfl⟩
    have hflagsField : isField delimiter flags = true :=
      isField_of_notMem fun h => absurd (hflags _ h) (by decide)
    have hsplit := splitEscaped_writtenFields (ne_slash_of_isDelimiter hdelimiter)
      (List.cons_ne_nil pattern [replacement, flags])
      (by simp [hpattern, hreplacement, hflagsField])
    rw [script, ofScript?_of_split hdelimiter hsplit, if_pos hflags]

end Substitution

/-- For every delimiter but the backslash, fields that are written with it are read as they were,
and there is one part more than there are delimiters that no backslash takes along. A script of
`sed` substitutes exactly if it writes a pattern, a replacement and known flags, and it substitutes
these. -/
theorem delimiters_undone :
    (∀ delimiter fields, delimiter ≠ '\\' → fields ≠ [] →
        (∀ field ∈ fields, isField delimiter field = true) →
        splitEscaped delimiter (writtenFields delimiter fields) = fields) ∧
      (∀ delimiter t, delimiter ≠ '\\' →
        (splitEscaped delimiter t).length = (barePlaces delimiter t).length + 1) ∧
      ∀ t s, Substitution.ofScript? t = some s ↔
        ∃ delimiter pattern replacement flags, Substitution.isDelimiter delimiter = true ∧
          isField delimiter pattern = true ∧ isField delimiter replacement = true ∧
          (∀ c ∈ flags, c ∈ ['g', 'i', 'I']) ∧
          t = Substitution.script delimiter pattern replacement flags ∧
          s = Substitution.ofParts pattern replacement flags :=
  ⟨fun _ _ hslash hne hfields => splitEscaped_writtenFields hslash hne hfields,
    fun _ t hslash => length_splitEscaped hslash t, fun _ _ => Substitution.ofScript?_eq_some_iff⟩

/-- A bar in the pattern, and a replacement that ends in a pair, between bars. -/
theorem delimiters_undone_bar :
    '|' ≠ '\\' ∧ (∀ field ∈ ["a|b".toList, "\\1\\\\".toList, ['g']], isField '|' field = true) ∧
      splitEscaped '|' "a\\|b|\\1\\\\|g".toList =
        ["a|b".toList, "\\1\\\\".toList, ['g']] ∧
      (barePlaces '|' "a\\|b|\\1\\\\|g".toList).length + 1 = 3 ∧
      Substitution.ofScript? "s|a\\|b|\\1\\\\|g".toList =
        some ⟨"a|b".toList, "\\1\\\\".toList, true, false⟩ := by
  obtain ⟨hundone, hcount, hscript⟩ := delimiters_undone
  have hfields : ∀ field ∈ ["a|b".toList, "\\1\\\\".toList, ['g']], isField '|' field = true := by
    decide
  have hsplit := hundone '|' _ (by decide) (by decide) hfields
  refine ⟨by decide, hfields, hsplit, ?_, ?_⟩
  · exact (hcount '|' _ (by decide)).symm.trans (congrArg List.length hsplit)
  · exact (hscript _ _).mpr ⟨'|', _, _, ['g'], by decide +kernel, hfields _ (by simp),
      hfields _ (by simp), by decide, rfl, rfl⟩

end CrossShell
