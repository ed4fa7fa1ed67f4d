import CrossShell.Proofs.Special.Selections
import CrossShell.Special.Fields
import Mathlib.Data.Nat.PSub

/-!
# Lists of fields

A list of fields names them by numbers from 1, alone or as the two ends of a range. It becomes the
list of their indices from 0, in the order of the list and with repetitions, and there is a limit on
how many there may be.

* `FieldNumber`, `FieldPart`: a number, and a part of a list, as they are written.
* `partIndices?_text`, `indicesOf?_map_text`: the indices of a part and of several, if there is room
  for them. `exists_parts_of_indicesOf?`: nothing else has indices.
* `fieldRounds?`: the parts read one after the other, where a difference can be negative and a range
  is decided on before its indices are listed.
* `fieldRounds?_eq`: no difference is negative, and the rounds give the indices of the list.
* `length_le_of_requestOf?`: a range is listed only if it fits in what is left.
* `field_list_exact`: which lists have indices, which these are, and that reading them is safe.
-/

namespace CrossShell

namespace Text

theorem splitOn_join {sep : Char} {parts : List Text} (hne : parts ≠ [])
    (hfree : ∀ t ∈ parts, sep ∉ t) : splitOn sep (join [sep] parts) = parts := by
  induction parts with
  | nil => exact absurd rfl hne
  | cons t ts ih =>
    have ht := hfree t List.mem_cons_self
    cases ts with
    | nil => exact splitOn_of_notMem ht
    | cons u ts =>
      have hrest := ih (by simp) fun s hs => hfree s (List.mem_cons_of_mem _ hs)
      rw [join, List.append_assoc, List.singleton_append, splitOn_append ht, hrest]

theorem splitOn_ne_nil (sep : Char) (t : Text) : splitOn sep t ≠ [] := by
  cases t with
  | nil => simp [splitOn]
  | cons c t =>
    by_cases hc : c = sep
    · rw [splitOn, if_pos hc]
      simp
    · obtain ⟨part, parts, -, hcons⟩ := splitOn_cons hc t
      simp [hcons]

theorem join_cons_nil (sep : Text) {parts : List Text} (hne : parts ≠ []) :
    join sep ([] :: parts) = sep ++ join sep parts := by
  obtain ⟨t, ts, rfl⟩ := List.exists_cons_of_ne_nil hne
  rfl

theorem join_cons_cons (sep : Text) (c : Char) (t : Text) (ts : List Text) :
    join sep ((c :: t) :: ts) = c :: join sep (t :: ts) := by
  cases ts <;> rfl

/-- The parts of a text, put together again. -/
theorem join_splitOn (sep : Char) (t : Text) : join [sep] (splitOn sep t) = t := by
  induction t with
  | nil => rfl
  | cons c t ih =>
    by_cases hc : c = sep
    · rw [splitOn, if_pos hc, join_cons_nil _ (splitOn_ne_nil sep t), ih, hc]
      rfl
    · obtain ⟨part, parts, hsplit, hcons⟩ := splitOn_cons hc t
      rw [hcons, join_cons_cons, ← hsplit, ih]

end Text

/-! ## Numbers and parts as they are written -/

/-- The number of a field as it is written: from 1 on, in 64 bits, perhaps with a plus sign. -/
structure FieldNumber where
  /-- Whether a plus sign stands in front. -/
  plus : Bool
  /-- The digits. -/
  numeral : Numeral
  pos : 0 < numeral.value
  fits : numeral.value < UInt64.size

namespace FieldNumber

variable (n : FieldNumber)

/-- The number. -/
def value : Nat := n.numeral.value

/-- How the number is written. -/
def text : Text := if n.plus then '+' :: n.numeral.digits else n.numeral.digits

theorem notMem_text {c : Char} (hdigit : c.isDigit = false) (hplus : c ≠ '+') : c ∉ n.text := by
  have hfree := n.numeral.notMem_digits hdigit
  unfold text
  split
  · simp [hplus, hfree]
  · exact hfree

theorem toNat64?_text : Text.toNat64? n.text = some n.value := by
  have hdigits : Text.toNat64? n.numeral.digits = some n.value := by
    rw [n.numeral.toNat64?_digits, if_pos n.fits]
    rfl
  unfold text
  split
  · -- A sign in front of the digits is taken off, and digits have none.
    rw [← hdigits, Text.toNat64?, Text.toNat64?, Text.toNatBelow?, Text.toNatBelow?,
      n.numeral.unsignedDigits_digits]
    rfl
  · exact hdigits

/-- A field has the index below its number. -/
theorem toIndex64?_text : Text.toIndex64? n.text = some (n.value - 1) := by
  have hpos : 0 < n.value := n.pos
  obtain ⟨i, hi⟩ : ∃ i, n.value = i + 1 := ⟨n.value - 1, by omega⟩
  rw [Text.toIndex64?, n.toNat64?_text, hi]
  rfl

end FieldNumber

theorem Text.eq_unsignedDigits (t : Text) :
    t = Text.unsignedDigits t ∨ t = '+' :: Text.unsignedDigits t := by
  unfold Text.unsignedDigits
  split
  · exact .inr rfl
  · exact .inl rfl

/-- What is read as a number is digits, perhaps behind a plus sign. -/
theorem exists_numeral_of_toNat64? {t : Text} {k : Nat} (h : Text.toNat64? t = some k) :
    ∃ n : Numeral, Text.unsignedDigits t = n.digits ∧ n.value = k := by
  rw [Text.toNat64?, Text.toNatBelow?] at h
  dsimp only at h
  split at h
  · cases h
  rename_i hdigits
  simp only [Bool.or_eq_true, List.isEmpty_iff, Bool.not_eq_true', not_or, Bool.not_eq_false,
    List.all_eq_true] at hdigits
  split at h
  · exact ⟨⟨_, hdigits.1, hdigits.2⟩, rfl, Option.some.inj h⟩
  · cases h

/-- Only the number of a field has an index. -/
theorem exists_number_of_toIndex64? {t : Text} {i : Nat} (h : Text.toIndex64? t = some i) :
    ∃ n : FieldNumber, t = n.text := by
  have hread : Text.toNat64? t = some (i + 1) := by
    unfold Text.toIndex64? at h
    split at h
    · cases h
      assumption
    · cases h
  have hlt : i + 1 < UInt64.size := Text.toNatBelow?_lt hread
  obtain ⟨numeral, hdigits, hvalue⟩ := exists_numeral_of_toNat64? hread
  have hpos : 0 < numeral.value := by omega
  have hfits : numeral.value < UInt64.size := by omega
  rcases Text.eq_unsignedDigits t with hplain | hplus
  · exact ⟨⟨false, numeral, hpos, hfits⟩, hplain.trans hdigits⟩
  · exact ⟨⟨true, numeral, hpos, hfits⟩, hplus.trans (congrArg _ hdigits)⟩

/-- A part of a list of fields. -/
inductive FieldPart where
  /-- One field. -/
  | one (n : FieldNumber)
  /-- The fields from one to another that does not stand in front of it. -/
  | range (m n : FieldNumber) (le : m.value ≤ n.value)

namespace FieldPart

/-- How the part is written. -/
def text : FieldPart → Text
  | one n => n.text
  | range m n _ => m.text ++ '-' :: n.text

/-- The indices of its fields, which are one less than their numbers. -/
def indices : FieldPart → List Nat
  | one n => [n.value - 1]
  | range m n _ => List.range' (m.value - 1) (n.value + 1 - m.value)

theorem notMem_text (p : FieldPart) : ',' ∉ p.text := by
  have hnumber (n : FieldNumber) : ',' ∉ n.text := n.notMem_text rfl (by decide)
  cases p with
  | one n => exact hnumber n
  | range m n _ => simp [text, hnumber]

/-- A part has its indices if there is room for all of them. -/
theorem partIndices?_text (p : FieldPart) (room : Nat) :
    partIndices? room p.text = if p.indices.length ≤ room then some p.indices else none := by
  have hdash (n : FieldNumber) : '-' ∉ n.text := n.notMem_text rfl (by decide)
  unfold partIndices?
  cases p with
  | one n =>
    have hlength : (one n).indices.length = 1 := rfl
    simp only [text, Text.splitOnce_of_notMem (hdash n), n.toIndex64?_text,
      Option.bind_eq_bind, Option.bind_some]
    by_cases hroom : room = 0
    · rw [if_pos hroom, if_neg (by omega)]
    · rw [if_neg hroom, if_pos (by omega)]
      rfl
  | range m n hle =>
    have hpos : 0 < m.value := m.pos
    have hlength : (range m n hle).indices.length = n.value + 1 - m.value := List.length_range'
    have hwidth : n.value - 1 + 1 - (m.value - 1) = n.value + 1 - m.value := by omega
    simp only [text, Text.splitOnce_append (hdash m), m.toIndex64?_text, n.toIndex64?_text,
      Option.bind_eq_bind, Option.bind_some, hwidth]
    by_cases hroom : n.value + 1 - m.value ≤ room
    · rw [if_neg (by omega), if_pos (by omega)]
      rfl
    · rw [if_pos (by omega), if_neg (by omega)]

end FieldPart

/-- Only a part of a list of fields has indices. -/
theorem exists_part_of_partIndices? {room : Nat} {part : Text} {indices : List Nat}
    (h : partIndices? room part = some indices) : ∃ p : FieldPart, part = p.text := by
  unfold partIndices? at h
  by_cases hdash : '-' ∈ part
  · obtain ⟨start, stop, rfl, hstart⟩ := List.eq_append_cons_of_mem hdash
    simp only [Text.splitOnce_append hstart] at h
    obtain ⟨i, hi, h⟩ := Option.bind_eq_some_iff.mp h
    obtain ⟨j, hj, h⟩ := Option.bind_eq_some_iff.mp h
    obtain ⟨m, rfl⟩ := exists_number_of_toIndex64? hi
    obtain ⟨n, rfl⟩ := exists_number_of_toIndex64? hj
    obtain rfl : m.value - 1 = i := Option.some.inj (m.toIndex64?_text.symm.trans hi)
    obtain rfl : n.value - 1 = j := Option.some.inj (n.toIndex64?_text.symm.trans hj)
    have hpos : 0 < n.value := n.pos
    split at h
    · cases h
    · exact ⟨.range m n (by omega), rfl⟩
  · simp only [Text.splitOnce_of_notMem hdash] at h
    obtain ⟨i, hi, -⟩ := Option.bind_eq_some_iff.mp h
    obtain ⟨n, rfl⟩ := exists_number_of_toIndex64? hi
    exact ⟨.one n, rfl⟩

theorem length_le_of_partIndices? {room : Nat} {part : Text} {indices : List Nat}
    (h : partIndices? room part = some indices) : indices.length ≤ room := by
  obtain ⟨p, rfl⟩ := exists_part_of_partIndices? h
  rw [p.partIndices?_text] at h
  split at h
  · cases h
    assumption
  · cases h

/-- The indices of several parts. -/
def fieldsOf (ps : List FieldPart) : List Nat := ps.flatMap FieldPart.indices

theorem length_fieldsOf_cons (p : FieldPart) (ps : List FieldPart) :
    (fieldsOf (p :: ps)).length = p.indices.length + (fieldsOf ps).length := by
  rw [fieldsOf, List.flatMap_cons, List.length_append]
  rfl

theorem indicesOf?_cons (room : Nat) (part : Text) (parts : List Text) :
    indicesOf? room (part :: parts) = (partIndices? room part).bind fun indices =>
      (indicesOf? (room - indices.length) parts).map (indices ++ ·) := by
  rw [indicesOf?]
  cases partIndices? room part with
  | none => rfl
  | some indices =>
    simp only [Option.bind_eq_bind, Option.bind_some]
    cases indicesOf? (room - indices.length) parts <;> rfl

/-- Several parts have their indices if there is room for all of them. -/
theorem indicesOf?_map_text (ps : List FieldPart) (room : Nat) :
    indicesOf? room (ps.map FieldPart.text) =
      if (fieldsOf ps).length ≤ room then some (fieldsOf ps) else none := by
  induction ps generalizing room with
  | nil => simp [indicesOf?, fieldsOf]
  | cons p ps ih =>
    rw [List.map_cons, indicesOf?_cons, p.partIndices?_text, length_fieldsOf_cons]
    by_cases hfirst : p.indices.length ≤ room
    · rw [if_pos hfirst, Option.bind_some, ih]
      by_cases hrest : (fieldsOf ps).length ≤ room - p.indices.length
      · rw [if_pos hrest, if_pos (by omega)]
        rfl
      · rw [if_neg hrest, if_neg (by omega)]
        rfl
    · rw [if_neg hfirst, if_neg (by omega)]
      rfl

theorem exists_parts_of_indicesOf? {room : Nat} {parts : List Text} {indices : List Nat}
    (h : indicesOf? room parts = some indices) :
    ∃ ps : List FieldPart, parts = ps.map FieldPart.text := by
  induction parts generalizing room indices with
  | nil => exact ⟨[], rfl⟩
  | cons part parts ih =>
    rw [indicesOf?_cons] at h
    obtain ⟨first, hfirst, h⟩ := Option.bind_eq_some_iff.mp h
    obtain ⟨rest, hrest, -⟩ := Option.map_eq_some_iff.mp h
    obtain ⟨p, rfl⟩ := exists_part_of_partIndices? hfirst
    obtain ⟨ps, rfl⟩ := ih hrest
    exact ⟨p :: ps, rfl⟩

theorem indicesOf?_eq_some_iff {room : Nat} {parts : List Text} {indices : List Nat} :
    indicesOf? room parts = some indices ↔ ∃ ps : List FieldPart,
      parts = ps.map FieldPart.text ∧ indices = fieldsOf ps ∧ (fieldsOf ps).length ≤ room := by
  constructor
  · intro h
    obtain ⟨ps, rfl⟩ := exists_parts_of_indicesOf? h
    rw [indicesOf?_map_text] at h
    split at h
    · cases h
      exact ⟨ps, rfl, rfl, by assumption⟩
    · cases h
  · rintro ⟨ps, rfl, rfl, hroom⟩
    rw [indicesOf?_map_text, if_pos hroom]

/-! ## Part by part -/

/-- The indices that a part asks for if there are `count` of them before it, as the first and their
number. Each difference can fail; the list may also be refused. -/
def requestOf? (count : Nat) (part : Text) : Option (Option (Nat × Nat)) :=
  match Text.splitOnce '-' part with
  | some (start, stop) =>
    match Text.toNat64? start, Text.toNat64? stop with
    | some m, some n =>
      if m = 0 ∨ n < m then some none
      else (Nat.psub n m).bind fun width => (Nat.psub maxFields count).bind fun budget =>
        if budget ≤ width then some none
        else (Nat.psub m 1).bind fun first =>
          (Nat.psub n first).map fun length => some (first, length)
    | _, _ => some none
  | none => some (((Text.toNat64? part).bind pred?).map fun i => (i, 1))

/-- The indices that are listed after one more part. -/
def fieldRound? (indices : List Nat) (part : Text) : Option (Option (List Nat)) :=
  (requestOf? indices.length part).map fun request => request.bind fun (first, length) =>
    let listed := indices ++ List.range' first length
    if maxFields < listed.length then none else some listed

/-- The indices that are listed after all parts, one after the other. -/
def fieldRounds? (indices : List Nat) : List Text → Option (Option (List Nat))
  | [] => some (some indices)
  | part :: parts => (fieldRound? indices part).bind fun
    | none => some none
    | some indices => fieldRounds? indices parts

theorem requestOf?_of_notMem {part : Text} (hdash : '-' ∉ part) (count : Nat) :
    requestOf? count part = some ((Text.toIndex64? part).map fun i => (i, 1)) := by
  rw [requestOf?, Text.splitOnce_of_notMem hdash, toIndex64?_eq]

/-- No difference of a range is negative while the limit is kept. -/
theorem requestOf?_of_range {start : Text} (hstart : '-' ∉ start) (stop : Text) {count : Nat}
    (hcount : count ≤ maxFields) : requestOf? count (start ++ '-' :: stop) =
      some ((Text.toIndex64? start).bind fun i => (Text.toIndex64? stop).bind fun j =>
        if j < i ∨ maxFields - count ≤ j - i then none else some (i, j + 1 - i)) := by
  simp only [requestOf?, Text.splitOnce_append hstart, toIndex64?_eq]
  rcases Text.toNat64? start with _ | _ | i
  · rfl
  · cases Text.toNat64? stop <;> simp [pred?]
  rcases Text.toNat64? stop with _ | _ | j
  · rfl
  · simp [pred?]
  simp only [pred?, Option.bind_some]
  by_cases hlt : j < i
  · rw [if_pos (by omega), if_pos (by omega)]
  have hwidth : Nat.psub (j + 1) (i + 1) = some (j - i) := by
    rw [Nat.psub_eq_some]
    omega
  rw [if_neg (by omega), hwidth, Nat.psub_eq_sub hcount]
  simp only [Option.bind_some]
  by_cases hroom : maxFields - count ≤ j - i
  · rw [if_pos hroom, if_pos (by omega)]
  have hfirst : Nat.psub (i + 1) 1 = some i := by rw [Nat.psub_eq_some]
  have hlength : Nat.psub (j + 1) i = some (j + 1 - i) := Nat.psub_eq_sub (by omega)
  rw [if_neg hroom, if_neg (by omega), hfirst, Option.bind_some, hlength]
  rfl

/-- A range is asked for only if it fits in what is left. -/
theorem length_le_of_requestOf? {count first length : Nat} {part : Text}
    (hcount : count ≤ maxFields) (hdash : '-' ∈ part)
    (h : requestOf? count part = some (some (first, length))) : count + length ≤ maxFields := by
  obtain ⟨start, stop, rfl, hstart⟩ := List.eq_append_cons_of_mem hdash
  rw [requestOf?_of_range hstart stop hcount, Option.some.injEq] at h
  obtain ⟨i, -, h⟩ := Option.bind_eq_some_iff.mp h
  obtain ⟨j, -, h⟩ := Option.bind_eq_some_iff.mp h
  split at h
  · cases h
  · cases h
    omega

/-- One round lists the indices of its part, or refuses it if there is no room for them. -/
theorem fieldRound?_eq {indices : List Nat} (h : indices.length ≤ maxFields) (part : Text) :
    fieldRound? indices part =
      some ((partIndices? (maxFields - indices.length) part).map (indices ++ ·)) := by
  unfold fieldRound? partIndices?
  by_cases hdash : '-' ∈ part
  · obtain ⟨start, stop, rfl, hstart⟩ := List.eq_append_cons_of_mem hdash
    simp only [requestOf?_of_range hstart stop h, Text.splitOnce_append hstart]
    rcases Text.toIndex64? start with _ | i
    · rfl
    rcases Text.toIndex64? stop with _ | j
    · rfl
    simp only [Option.bind_eq_bind, Option.bind_some, Option.map_some]
    by_cases hrefused : j < i ∨ maxFields - indices.length ≤ j - i
    · rw [if_pos hrefused, if_pos hrefused]
      rfl
    · have hlisted : (indices ++ List.range' i (j + 1 - i)).length ≤ maxFields := by
        rw [List.length_append, List.length_range']
        omega
      rw [if_neg hrefused, if_neg hrefused]
      exact congrArg some (if_neg (Nat.not_lt.mpr hlisted))
  · simp only [requestOf?_of_notMem hdash, Text.splitOnce_of_notMem hdash]
    rcases Text.toIndex64? part with _ | i
    · rfl
    have hlisted : (indices ++ List.range' i 1).length = indices.length + 1 := by simp
    simp only [Option.bind_eq_bind, Option.bind_some, Option.map_some]
    by_cases hfull : maxFields - indices.length = 0
    · rw [if_pos hfull, if_pos (by omega)]
      rfl
    · rw [if_neg hfull, if_neg (by omega)]
      rfl

/-- No difference is negative, and the rounds list the indices of their parts. -/
theorem fieldRounds?_eq {indices : List Nat} (h : indices.length ≤ maxFields) (parts : List Text) :
    fieldRounds? indices parts =
      some ((indicesOf? (maxFields - indices.length) parts).map (indices ++ ·)) := by
  induction parts generalizing indices with
  | nil => simp [fieldRounds?, indicesOf?]
  | cons part parts ih =>
    rw [fieldRounds?, fieldRound?_eq h, indicesOf?_cons, Option.bind_some]
    cases hfirst : partIndices? (maxFields - indices.length) part with
    | none => rfl
    | some first =>
      have hroom := length_le_of_partIndices? hfirst
      have hlength : (indices ++ first).length = indices.length + first.length :=
        List.length_append
      simp only [Option.map_some, Option.bind_some]
      rw [ih (by omega), hlength, Nat.sub_add_eq, Option.map_map]
      simp [Function.comp_def]

/-- After any number of rounds the limit is kept. -/
theorem length_le_of_fieldRounds? {parts : List Text} {indices : List Nat}
    (h : fieldRounds? [] parts = some (some indices)) : indices.length ≤ maxFields := by
  rw [fieldRounds?_eq (by simp), Option.some.injEq, Option.map_eq_some_iff] at h
  obtain ⟨found, hfound, rfl⟩ := h
  obtain ⟨ps, -, rfl, hroom⟩ := indicesOf?_eq_some_iff.mp hfound
  exact hroom

/-- **Lists of fields.** A text has indices exactly if it is a list, with commas, of positive
numbers and of ranges that do not go backwards, all in 64 bits, that names no more fields than the
limit, repetitions counted; the indices are those of the fields, in order. Read part by part, no
difference is ever negative. Whatever is written, the limit is kept in front of each part, and a
range is listed only if it keeps it. -/
theorem field_list_exact (list : Text) :
    (∀ indices, fieldIndices? list = some indices ↔ ∃ parts : List FieldPart,
        parts ≠ [] ∧ list = Text.join [','] (parts.map FieldPart.text) ∧
          indices = parts.flatMap FieldPart.indices ∧ indices.length ≤ maxFields) ∧
      fieldRounds? [] (Text.splitOn ',' list) = some (fieldIndices? list) ∧
      ∀ front part indices, fieldRounds? [] front = some (some indices) →
        indices.length ≤ maxFields ∧ ∀ first length, '-' ∈ part →
          requestOf? indices.length part = some (some (first, length)) →
            indices.length + length ≤ maxFields := by
  refine ⟨fun indices => ?_, ?_, fun front part indices hfront => ?_⟩
  · rw [fieldIndices?, indicesOf?_eq_some_iff]
    constructor
    · rintro ⟨ps, hsplit, rfl, hroom⟩
      refine ⟨ps, ?_, ?_, rfl, hroom⟩
      · rintro rfl
        exact Text.splitOn_ne_nil ',' list hsplit
      · rw [← hsplit, Text.join_splitOn]
    · rintro ⟨ps, hne, rfl, rfl, hroom⟩
      refine ⟨ps, Text.splitOn_join (by simpa using hne) ?_, rfl, hroom⟩
      simp [FieldPart.notMem_text]
  · rw [fieldRounds?_eq (by simp)]
    simp [fieldIndices?]
  · have hkept := length_le_of_fieldRounds? hfront
    exact ⟨hkept, fun first length => length_le_of_requestOf? hkept⟩

-- The limit is met by ranges and single fields together, and passed by one more of either.
example : (fieldIndices? "1-255,9".toList).isSome = true ∧ fieldIndices? "1-256,9".toList = none ∧
    fieldIndices? "9,1-256".toList = none := by
  decide +kernel

end CrossShell
