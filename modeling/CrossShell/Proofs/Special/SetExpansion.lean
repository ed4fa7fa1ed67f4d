import CrossShell.Proofs.Token.Checked
import CrossShell.Special.CharSet
import Mathlib.Data.Nat.PSub

/-!
# The limit on a set of characters

A set is read element by element: named classes, ranges and single characters. A range or a single
character is taken in only if the limit is kept with it. A named class is taken in without a look
at the limit, so a set can grow beyond it, but only by classes at its end.

* `setElements`: the elements of a set. `expandSet?_eq`: a set is expanded element by element.
* `expandElements?_eq_some`: what has been looked at where the expansion succeeds.
  `length_le_of_getLast?`: beyond the limit there are only classes.
* `setRound?`, `setRounds?`: the expansion as a loop over the bytes of a text, where a difference
  can be negative, a cut can be inside of a character, and the rounds can run out.
* `setRound?_eq`: no round fails, and each takes at least one character.
* `set_limit_kept_iff`: the limit is kept exactly if each named class fits where it stands.
-/

namespace CrossShell

/-! ## Elements -/

namespace SetElement

/-- Whether the element is a named class. -/
def isNamed : SetElement → Bool
  | named _ => true
  | _ => false

/-- All characters of the element. -/
def members : SetElement → Text
  | named members => members
  | single c => [c]
  | range first last => (List.range' first.toNat (last.toNat + 1 - first.toNat)).map Char.ofNat

/-- An element that is taken in has all its characters, and unless it is a named class there is room
for them. -/
theorem eq_members_of_members? {room : Nat} {e : SetElement} {ms : Text}
    (h : e.members? room = some ms) :
    ms = e.members ∧ (e.isNamed = false → 0 < ms.length ∧ ms.length ≤ room) := by
  cases e with
  | named members =>
    cases h
    exact ⟨rfl, fun h => by cases h⟩
  | single c =>
    rw [members?] at h
    split at h
    · cases h
    · cases h
      exact ⟨rfl, fun _ => by simp only [List.length_singleton]; omega⟩
  | range first last =>
    rw [members?] at h
    split at h
    · cases h
    · cases h
      exact ⟨rfl, fun _ => by rw [List.length_map, List.length_range']; omega⟩

end SetElement

/-- The elements of a set, of which the first `skip` characters belong to an element read before. -/
def elementsFrom : (skip : Nat) → Text → List SetElement
  | _, [] => []
  | skip + 1, _ :: cs => elementsFrom skip cs
  | 0, c :: cs => (setElement c cs).1 :: elementsFrom ((setElement c cs).2 - 1) cs

/-- The elements of a set. -/
def setElements (set : Text) : List SetElement := elementsFrom 0 set

/-- The characters of some elements, where `count` characters are expanded before. -/
def expandElements? : (count : Nat) → List SetElement → Option Text
  | _, [] => some []
  | count, e :: es => (e.members? (maxSet - count)).bind fun ms =>
    (expandElements? (count + ms.length) es).map (ms ++ ·)

theorem expandFrom?_cons (count : Nat) (c : Char) (cs : Text) : expandFrom? count 0 (c :: cs) =
    ((setElement c cs).1.members? (maxSet - count)).bind fun ms =>
      (expandFrom? (count + ms.length) ((setElement c cs).2 - 1) cs).map (ms ++ ·) := by
  rw [expandFrom?]
  rcases setElement c cs with ⟨e, length⟩
  cases hms : e.members? (maxSet - count) <;> simp only [hms] <;> rfl

theorem expandFrom?_eq (count skip : Nat) (set : Text) :
    expandFrom? count skip set = expandElements? count (elementsFrom skip set) := by
  induction set generalizing count skip with
  | nil => cases skip <;> rfl
  | cons c cs ih =>
    cases skip with
    | succ skip => exact ih count skip
    | zero =>
      rw [expandFrom?_cons, elementsFrom, expandElements?]
      simp only [ih]

/-- A set is expanded element by element. -/
theorem expandSet?_eq (set : Text) : expandSet? set = expandElements? 0 (setElements set) :=
  expandFrom?_eq 0 0 set

/-- All characters of some elements. -/
def membersOf (es : List SetElement) : Text := es.flatMap SetElement.members

theorem length_membersOf_append (es fs : List SetElement) :
    (membersOf (es ++ fs)).length = (membersOf es).length + (membersOf fs).length := by
  rw [membersOf, List.flatMap_append, List.length_append]
  rfl

theorem membersOf_cons (e : SetElement) (es : List SetElement) :
    membersOf (e :: es) = e.members ++ membersOf es :=
  List.flatMap_cons

/-- Where the expansion succeeds, it gives all characters, and each range and single character has
kept the limit where it stands. -/
theorem expandElements?_eq_some {count : Nat} {es : List SetElement} {out : Text}
    (h : expandElements? count es = some out) : out = membersOf es ∧
      ∀ front e behind, es = front ++ e :: behind → e.isNamed = false →
        count + (membersOf (front ++ [e])).length ≤ maxSet := by
  induction es generalizing count out with
  | nil =>
    cases h
    exact ⟨rfl, fun front e behind h => by simp at h⟩
  | cons e es ih =>
    rw [expandElements?] at h
    obtain ⟨ms, hms, h⟩ := Option.bind_eq_some_iff.mp h
    obtain ⟨rest, hrest, rfl⟩ := Option.map_eq_some_iff.mp h
    obtain ⟨rfl, hfits⟩ := SetElement.eq_members_of_members? hms
    obtain ⟨rfl, hkept⟩ := ih hrest
    refine ⟨(membersOf_cons e es).symm, fun front f behind heq hf => ?_⟩
    cases front with
    | nil =>
      obtain ⟨rfl, rfl⟩ := List.cons.inj heq
      have := hfits hf
      have hone : membersOf [e] = e.members := List.append_nil _
      rw [List.nil_append, hone]
      omega
    | cons g front =>
      obtain ⟨rfl, rfl⟩ := List.cons.inj heq
      have := hkept front f behind rfl hf
      rw [List.cons_append, membersOf_cons, List.length_append]
      omega

/-- A set that ends in a range or a single character keeps the limit. -/
theorem length_le_of_getLast? {es : List SetElement} {out : Text} {e : SetElement}
    (h : expandElements? 0 es = some out) (hlast : es.getLast? = some e) (he : e.isNamed = false) :
    out.length ≤ maxSet := by
  obtain ⟨rfl, hkept⟩ := expandElements?_eq_some h
  obtain ⟨front, rfl⟩ := List.getLast?_eq_some_iff.mp hlast
  have hle := hkept front e [] rfl he
  omega

/-- The limit is kept exactly if each named class keeps it where it stands. -/
theorem length_le_iff_of_expandElements? {es : List SetElement} {out : Text}
    (h : expandElements? 0 es = some out) : out.length ≤ maxSet ↔
      ∀ front members behind, es = front ++ .named members :: behind →
        (membersOf front).length + members.length ≤ maxSet := by
  have hout := (expandElements?_eq_some h).1
  constructor
  · rintro hle front members behind rfl
    have hnamed : (SetElement.named members).members = members := rfl
    rw [hout, length_membersOf_append, membersOf_cons, List.length_append, hnamed] at hle
    omega
  · intro hnamed
    rcases List.eq_nil_or_concat es with rfl | ⟨front, e, rfl⟩
    · rw [hout]
      exact Nat.zero_le _
    have hend : (front.concat e).getLast? = some e := by simp
    cases e with
    | named members =>
      have hlast := hnamed front members [] (by simp)
      rw [hout, List.concat_eq_append, length_membersOf_append]
      simpa [membersOf, SetElement.members] using hlast
    | single c => exact length_le_of_getLast? h hend rfl
    | range first last => exact length_le_of_getLast? h hend rfl

/-! ## Round by round -/

/-- The text behind its first `n` bytes, if it can be cut there. -/
def Text.behind? (n : Nat) (t : Text) : Option Text := (Text.splitBytes? n t).map Prod.snd

theorem Text.behind?_append (u r : Text) : Text.behind? (Text.size u) (u ++ r) = some r := by
  rw [behind?, splitBytes?_append]
  rfl

/-- The character that the front of a set stands for, and how many bytes it is written with. -/
def frontChar (c : Char) (cs : Text) : Char × Nat :=
  if c = '\\' then
    match cs with
    | [] => ('\\', 1)
    | d :: _ => (escapedChar d, 1 + d.utf8Size)
  else (c, c.utf8Size)

/-- What is expanded so far and what is left of the set, unless there is too much of the former. -/
def withinLimit? (out rest : Text) : Option (Text × Text) :=
  if maxSet < out.length then none else some (out, rest)

/-- What is expanded and left behind the element that starts with `first` and goes on, perhaps as a
range, in the text behind it. The set may be refused; besides, the difference from the limit and the
cut behind the range can fail. -/
def frontRound? (out : Text) (first : Char) : Text → Option (Option (Text × Text))
  | '-' :: last :: rest =>
    match Nat.psub last.toNat first.toNat with
    | none => some none
    | some width => (Nat.psub maxSet (min out.length maxSet)).bind fun room =>
      if room ≤ width then some none
      else (Text.behind? (1 + last.utf8Size) ('-' :: last :: rest)).map fun rest =>
        withinLimit? (out ++ (SetElement.range first last).members) rest
  | rest => some (withinLimit? (out ++ [first]) rest)

/-- One round of the expansion: what is expanded and what is left behind the element at the front of
a set. A named class is taken in as it is. -/
def setRound? (out : Text) (c : Char) (cs : Text) : Option (Option (Text × Text)) :=
  match namedClasses.find? (·.1.isPrefixOf (c :: cs)) with
  | some (name, members) =>
    (Text.behind? (Text.size name) (c :: cs)).map fun rest => some (out ++ members, rest)
  | none =>
    (Text.behind? (frontChar c cs).2 (c :: cs)).bind (frontRound? out (frontChar c cs).1)

/-- The expansion of a set in at most `rounds` rounds. -/
def setRounds? : (rounds : Nat) → (out set : Text) → Option (Option Text)
  | _, out, [] => some (some out)
  | 0, _, _ :: _ => none
  | rounds + 1, out, c :: cs => (setRound? out c cs).bind fun
    | none => some none
    | some (out, rest) => setRounds? rounds out rest

/-- Where no named class stands, the front of a set is a character, and what is behind it decides
whether a range starts with it. -/
theorem setElement_of_front {c : Char} {cs : Text}
    (h : namedClasses.find? (·.1.isPrefixOf (c :: cs)) = none) : ∃ taken rest, taken ≠ [] ∧
      c :: cs = taken ++ rest ∧ (frontChar c cs).2 = Text.size taken ∧
      setElement c cs = rangeOrSingle (frontChar c cs).1 taken.length rest := by
  unfold setElement frontChar
  rw [h]
  by_cases hc : c = '\\'
  · subst hc
    cases cs with
    | nil => exact ⟨['\\'], [], by simp, rfl, rfl, rfl⟩
    | cons d ds => exact ⟨['\\', d], ds, by simp, rfl, rfl, rfl⟩
  · refine ⟨[c], cs, by simp, rfl, ?_, ?_⟩
    · simp [hc]
    · simp only [hc, if_false]
      split
      · contradiction
      · rfl

/-- A range is taken in up to its last character, anything else as the single character that it
starts with; neither can fail. -/
theorem frontRound?_eq (out : Text) (first : Char) (n : Nat) (set : Text) : ∃ taken rest,
    set = taken ++ rest ∧ (rangeOrSingle first n set).2 = n + taken.length ∧
      frontRound? out first set =
        some (((rangeOrSingle first n set).1.members? (maxSet - out.length)).map fun ms =>
          (out ++ ms, rest)) := by
  fun_cases rangeOrSingle first n set with
  | case1 last rest =>
    refine ⟨['-', last], rest, rfl, rfl, ?_⟩
    have hcut : Text.behind? (1 + last.utf8Size) ('-' :: last :: rest) = some rest :=
      Text.behind?_append ['-', last] rest
    rw [frontRound?, SetElement.members?]
    by_cases hlt : last.toNat < first.toNat
    · rw [Nat.psub_eq_none.mpr hlt, if_pos (.inl hlt)]
      rfl
    rw [Nat.psub_eq_sub (by omega)]
    dsimp only
    rw [Nat.psub_eq_sub (Nat.min_le_right _ _), Option.bind_some, hcut]
    by_cases hroom : maxSet - out.length ≤ last.toNat - first.toNat
    · rw [if_pos (by omega), if_pos (.inr hroom)]
      rfl
    · have hkept : (out ++ (SetElement.range first last).members).length ≤ maxSet := by
        rw [SetElement.members, List.length_append, List.length_map, List.length_range']
        omega
      rw [if_neg (by omega), if_neg (by omega), Option.map_some, withinLimit?, if_neg (by omega)]
      rfl
  | case2 =>
    refine ⟨[], set, rfl, rfl, ?_⟩
    have hlength : (out ++ [first]).length = out.length + 1 := List.length_append
    rw [frontRound?, withinLimit?, SetElement.members?]
    · by_cases hfull : maxSet - out.length = 0
      · rw [if_pos (by omega), if_pos hfull]
        rfl
      · rw [if_neg (by omega), if_neg hfull]
        rfl
    · assumption

/-- A round does not fail. It takes at least one character off the set, as many as its element has,
and adds the characters of the element, if these are taken in. -/
theorem setRound?_eq (out : Text) (c : Char) (cs : Text) : ∃ taken rest, taken ≠ [] ∧
    c :: cs = taken ++ rest ∧ (setElement c cs).2 = taken.length ∧
      setRound? out c cs =
        some (((setElement c cs).1.members? (maxSet - out.length)).map fun ms =>
          (out ++ ms, rest)) := by
  cases hfind : namedClasses.find? (·.1.isPrefixOf (c :: cs)) with
  | some entry =>
    obtain ⟨name, members⟩ := entry
    have hprefixed : name.isPrefixOf (c :: cs) = true := by simpa using List.find?_some hfind
    obtain ⟨rest, hrest⟩ := List.isPrefixOf_iff_prefix.mp hprefixed
    have hnames : ∀ entry ∈ namedClasses, entry.1 ≠ [] := by decide
    have helement : setElement c cs = (.named members, name.length) := by
      unfold setElement
      rw [hfind]
    refine ⟨name, rest, hnames _ (List.mem_of_find?_eq_some hfind), hrest.symm, ?_, ?_⟩
    · rw [helement]
    · have hcut : Text.behind? (Text.size name) (c :: cs) = some rest := by
        rw [← hrest, Text.behind?_append]
      rw [helement, setRound?, hfind]
      simp only [hcut, Option.map_some, SetElement.members?]
  | none =>
    obtain ⟨front, set, hne, heq, hsize, helement⟩ := setElement_of_front hfind
    obtain ⟨taken, rest, rfl, hlength, hround⟩ :=
      frontRound?_eq out (frontChar c cs).1 front.length set
    have hcut : Text.behind? (frontChar c cs).2 (c :: cs) = some (taken ++ rest) := by
      rw [hsize, heq, Text.behind?_append]
    refine ⟨front ++ taken, rest, by simp [hne], by rw [heq, List.append_assoc], ?_, ?_⟩
    · rw [helement, hlength, List.length_append]
    · rw [helement, ← hround, setRound?, hfind]
      simp only [hcut, Option.bind_some]

theorem expandFrom?_eq_drop (count skip : Nat) (set : Text) :
    expandFrom? count skip set = expandFrom? count 0 (set.drop skip) := by
  induction skip generalizing set with
  | zero => rfl
  | succ skip ih =>
    cases set with
    | nil => rfl
    | cons c cs => exact ih cs

theorem drop_of_cons_eq_append {c : Char} {cs taken rest : Text} (hne : taken ≠ [])
    (h : c :: cs = taken ++ rest) : cs.drop (taken.length - 1) = rest := by
  obtain ⟨d, taken, rfl⟩ := List.exists_cons_of_ne_nil hne
  obtain ⟨-, rfl⟩ := List.cons.inj h
  exact List.drop_left

/-- As many rounds as a set has characters are enough, and they give its characters. -/
theorem setRounds?_eq {rounds : Nat} {set : Text} (h : set.length ≤ rounds) (out : Text) :
    setRounds? rounds out set = some ((expandFrom? out.length 0 set).map (out ++ ·)) := by
  induction rounds generalizing out set with
  | zero =>
    obtain rfl : set = [] := List.eq_nil_of_length_eq_zero (by omega)
    simp [setRounds?, expandFrom?]
  | succ rounds ih =>
    cases set with
    | nil => simp [setRounds?, expandFrom?]
    | cons c cs =>
      obtain ⟨taken, rest, hne, heq, hlength, hround⟩ := setRound?_eq out c cs
      have hpos := List.length_pos_iff.mpr hne
      have hrest : cs.drop ((setElement c cs).2 - 1) = rest := by
        rw [hlength, drop_of_cons_eq_append hne heq]
      have hshorter : rest.length ≤ rounds := by
        have := congrArg List.length heq
        rw [List.length_append, List.length_cons] at this
        rw [List.length_cons] at h
        omega
      rw [setRounds?, hround, Option.bind_some, expandFrom?_cons]
      cases (setElement c cs).1.members? (maxSet - out.length) with
      | none => rfl
      | some ms =>
        simp only [Option.map_some, Option.bind_some]
        rw [ih hshorter, expandFrom?_eq_drop _ ((setElement c cs).2 - 1), hrest, List.length_append,
          Option.map_map]
        simp [Function.comp_def]

/-- **The limit on a set.** A set that is expanded has no more characters than the limit exactly if
each named class in it keeps the limit where it stands, as each range and single character has to.
If the last element is one of these, nothing is left to ask for. Whatever is expanded so far and
whatever the set holds, a round of the expansion never takes a negative difference or cuts a
character, and it takes at least one character off the set; so as many rounds as there are
characters are enough. -/
theorem set_limit_kept_iff (set : Text) :
    (∀ out, expandSet? set = some out →
        (out.length ≤ maxSet ↔
          ∀ front members behind, setElements set = front ++ .named members :: behind →
            (membersOf front).length + members.length ≤ maxSet) ∧
        ∀ e, (setElements set).getLast? = some e → e.isNamed = false → out.length ≤ maxSet) ∧
      (∀ out c cs, ∃ result, setRound? out c cs = some result ∧
        ∀ out' rest, result = some (out', rest) → ∃ taken, taken ≠ [] ∧ c :: cs = taken ++ rest) ∧
      setRounds? set.length [] set = some (expandSet? set) := by
  refine ⟨fun out hout => ?_, fun out c cs => ?_, ?_⟩
  · rw [expandSet?_eq] at hout
    exact ⟨length_le_iff_of_expandElements? hout, fun e => length_le_of_getLast? hout⟩
  · obtain ⟨taken, rest, hne, heq, -, hround⟩ := setRound?_eq out c cs
    refine ⟨_, hround, fun out' rest' hresult => ⟨taken, hne, ?_⟩⟩
    obtain ⟨ms, -, hms⟩ := Option.map_eq_some_iff.mp hresult
    cases hms
    exact heq
  · rw [setRounds?_eq (Nat.le_refl _)]
    simp [expandSet?]

/-- A range that takes up all but ten characters of the limit, and a class of ten. -/
def fullSet : Text := "\u0100-\u04f5[:digit:]"

/-- The class fits exactly, and so the limit is kept. -/
theorem set_limit_kept_fullSet : ∃ out, expandSet? fullSet = some out ∧ out.length = maxSet ∧
    (out.length ≤ maxSet ↔ ∀ front members behind,
      setElements fullSet = front ++ .named members :: behind →
        (membersOf front).length + members.length ≤ maxSet) := by
  obtain ⟨out, hout, hlength⟩ : ∃ out, expandSet? fullSet = some out ∧ out.length = maxSet := by
    have hfull : (expandSet? fullSet).map List.length = some maxSet := by decide +kernel
    exact Option.map_eq_some_iff.mp hfull
  exact ⟨out, hout, hlength, ((set_limit_kept_iff fullSet).1 out hout).1⟩

/-- Forty times the class of small letters. -/
def repeatedClass : Text := (List.replicate 40 "[:lower:]".toList).flatten

/-- Classes alone lead beyond the limit. -/
theorem repeated_class_passes_limit :
    ∃ out, expandSet? repeatedClass = some out ∧ maxSet < out.length := by
  have hlength : (expandSet? repeatedClass).map List.length = some 1040 := by decide +kernel
  obtain ⟨out, hout, hlength⟩ := Option.map_eq_some_iff.mp hlength
  exact ⟨out, hout, by rw [hlength]; decide⟩

end CrossShell
