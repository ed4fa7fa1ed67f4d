import CrossShell.Rule.Table
import Mathlib.Data.List.Induction
import Mathlib.Data.List.Nodup

/-!
# Which mapping counts

A table is made by registering mappings one by one. Its list and its index stay in step, so that a
name is found if and only if a mapping has it, and of several mappings with one name the first that
can be registered counts.

* `RuleTable.Indexed`: the index has each mapping under its name, and nothing else.
* `RuleTable.registerChecked_eq`: what one registration does. `Indexed.registerChecked`: it keeps
  list and index in step.
* `Keeps`: which mappings of a user are registered.
* `first_registration_wins`: the table, for every list of mappings of a user.
-/

namespace CrossShell

/-- A mapping that can be registered, if its name is not taken. -/
def Mapping.isAdmissible (m : Mapping) : Bool :=
  m.problem?.isNone && (Special.ofName? m.name).isNone

theorem Mapping.isAdmissible_iff {m : Mapping} :
    m.isAdmissible = true ↔ m.problem? = none ∧ Special.ofName? m.name = none := by
  simp [isAdmissible]

namespace RuleTable

variable {table table' : RuleTable} {name : Text} {m : Mapping} {i : Nat}

/-! ## List and index in step -/

/-- The index has the place of each mapping under its name, and nothing else. -/
structure Indexed (table : RuleTable) : Prop where
  names_nodup : table.names.Nodup
  keys_nodup : (table.index.map Prod.fst).Nodup
  mem_index : ∀ name i, (name, i) ∈ table.index ↔
    ∃ m, table.mappings[i]? = some m ∧ m.name = name

theorem indexed_empty : empty.Indexed :=
  ⟨List.nodup_nil, List.nodup_nil, fun name i => by simp [empty]⟩

namespace Indexed

theorem position?_eq_some_iff (h : table.Indexed) :
    table.position? name = some i ↔ ∃ m, table.mappings[i]? = some m ∧ m.name = name := by
  rw [← h.mem_index, position?, List.lookup_eq_some_iff]
  constructor
  · rintro ⟨front, rest, heq, -⟩
    simp [heq]
  · intro hmem
    obtain ⟨front, rest, heq⟩ := List.append_of_mem hmem
    refine ⟨front, rest, heq, fun p hp => ?_⟩
    have hnodup := h.keys_nodup
    rw [heq, List.map_append, List.nodup_append] at hnodup
    have hne := hnodup.2.2 p.1 (List.mem_map_of_mem hp) name (by simp)
    simpa using hne.symm

theorem contains_iff (h : table.Indexed) : table.contains name = true ↔ name ∈ table.names := by
  simp only [contains, Option.isSome_iff_exists, h.position?_eq_some_iff, names, List.mem_map]
  constructor
  · rintro ⟨i, m, hm, hname⟩
    exact ⟨m, List.mem_of_getElem? hm, hname⟩
  · rintro ⟨m, hm, hname⟩
    obtain ⟨i, hi⟩ := List.mem_iff_getElem?.mp hm
    exact ⟨i, m, hi, hname⟩

theorem get?_eq_some_iff (h : table.Indexed) :
    table.get? name = some m ↔ m ∈ table.mappings ∧ m.name = name := by
  simp only [get?, Option.bind_eq_some_iff, h.position?_eq_some_iff, List.mem_iff_getElem?]
  constructor
  · rintro ⟨i, ⟨m', hm', hname⟩, hm⟩
    obtain rfl : m' = m := by simpa [hm'] using hm
    exact ⟨⟨i, hm⟩, hname⟩
  · rintro ⟨⟨i, hm⟩, hname⟩
    exact ⟨i, ⟨m, hm, hname⟩, hm⟩

theorem contains_eq (h : table.Indexed) (name : Text) :
    table.contains name = (table.get? name).isSome := by
  rw [Bool.eq_iff_iff, h.contains_iff, names, List.mem_map, Option.isSome_iff_exists]
  simp only [h.get?_eq_some_iff]

theorem get?_eq_find? (h : table.Indexed) (name : Text) :
    table.get? name = table.mappings.find? (·.name == name) := by
  refine Option.ext fun m => h.get?_eq_some_iff.trans ⟨fun ⟨hm, hname⟩ => ?_, fun hfind => ?_⟩
  · obtain ⟨m', hfind⟩ : ∃ m', table.mappings.find? (·.name == name) = some m' := by
      rw [← Option.isSome_iff_exists, List.find?_isSome]
      exact ⟨m, hm, by simpa using hname⟩
    have hname' : m'.name = name := by simpa using List.find?_some hfind
    rw [hfind, List.inj_on_of_nodup_map h.names_nodup (List.mem_of_find?_eq_some hfind) hm
      (hname'.trans hname.symm)]
  · exact ⟨List.mem_of_find?_eq_some hfind, by simpa using List.find?_some hfind⟩

/-- In a table that starts with the mappings of another one, their names are found where they
were. -/
theorem of_prefix (h : table.Indexed) (h' : table'.Indexed)
    (hfront : table.mappings <+: table'.mappings) (hname : table.contains name = true) :
    table'.get? name = table.get? name ∧ table'.position? name = table.position? name := by
  obtain ⟨i, hi⟩ := Option.isSome_iff_exists.mp hname
  obtain ⟨m, hm, hsame⟩ := h.position?_eq_some_iff.mp hi
  have hm' : table'.mappings[i]? = some m := by
    obtain ⟨rest, heq⟩ := hfront
    obtain ⟨hlt, -⟩ := List.getElem?_eq_some_iff.mp hm
    rw [← heq, List.getElem?_append_left hlt, hm]
  have hi' : table'.position? name = some i := h'.position?_eq_some_iff.mpr ⟨m, hm', hsame⟩
  simp only [get?, hi, hi', Option.bind_some, hm, hm', and_self]

/-! ## One registration -/

theorem mem_names_of_mem_keys (h : table.Indexed) (hname : name ∈ table.index.map Prod.fst) :
    name ∈ table.names := by
  obtain ⟨⟨_, i⟩, hmem, rfl⟩ := List.mem_map.mp hname
  obtain ⟨m, hm, hsame⟩ := (h.mem_index _ i).mp hmem
  exact List.mem_map.mpr ⟨m, List.mem_of_getElem? hm, hsame⟩

theorem push (h : table.Indexed) (hfresh : m.name ∉ table.names) : (table.push m).Indexed where
  names_nodup := by
    simpa [names, RuleTable.push] using List.Nodup.concat hfresh h.names_nodup
  keys_nodup := by
    have hkey : m.name ∉ table.index.map Prod.fst := fun hmem =>
      hfresh (h.mem_names_of_mem_keys hmem)
    simpa [RuleTable.push] using List.Nodup.concat hkey h.keys_nodup
  mem_index name i := by
    simp only [RuleTable.push, List.mem_append, List.mem_singleton, Prod.mk.injEq, h.mem_index]
    rcases Nat.lt_trichotomy i table.mappings.length with hlt | rfl | hgt
    · rw [List.getElem?_append_left hlt]
      exact or_iff_left fun heq => Nat.ne_of_lt hlt heq.2
    · simp [eq_comm]
    · have hnone : (table.mappings ++ [m])[i]? = none :=
        List.getElem?_eq_none (by rw [List.length_append]; exact hgt)
      simp [hnone, List.getElem?_eq_none (Nat.le_of_lt hgt), Nat.ne_of_gt hgt]

end Indexed

/-- A registration adds a mapping that is in order, names no special command and has a new name, and
else nothing. -/
theorem registerChecked_eq (h : table.Indexed) (m : Mapping) : table.registerChecked m =
    if m.isAdmissible = true ∧ m.name ∉ table.names then table.push m else table := by
  have hiff : table.contains m.name = true ↔ m.name ∈ table.names := h.contains_iff
  rw [registerChecked, register, Mapping.isAdmissible]
  simp only [← hiff]
  cases m.problem? <;> cases Special.ofName? m.name <;> cases table.contains m.name <;> rfl

theorem Indexed.registerChecked (h : table.Indexed) (m : Mapping) :
    (table.registerChecked m).Indexed := by
  rw [registerChecked_eq h]
  split
  next hfresh => exact h.push hfresh.2
  next => exact h

theorem registerChecked_prefix (table : RuleTable) (m : Mapping) :
    table.mappings <+: (table.registerChecked m).mappings := by
  rw [registerChecked, register]
  split
  · exact List.prefix_rfl
  · split
    · exact List.prefix_rfl
    · exact List.prefix_append _ _

/-! ## The built-in table -/

/-- Mappings with new names, of which none is a special command, are all registered. -/
theorem foldl_register (h : table.Indexed) {ms : List Mapping}
    (hnames : (table.names ++ ms.map (·.name)).Nodup)
    (hspecial : ∀ m ∈ ms, Special.ofName? m.name = none) :
    (ms.foldl register table).Indexed ∧
      (ms.foldl register table).mappings = table.mappings ++ ms := by
  induction ms generalizing table with
  | nil => exact ⟨h, (List.append_nil _).symm⟩
  | cons m ms ih =>
    have hfresh : m.name ∉ table.names := fun hmem =>
      (List.nodup_append.mp hnames).2.2 _ hmem _ List.mem_cons_self rfl
    have hregister : table.register m = table.push m := by
      rw [register, hspecial m List.mem_cons_self, if_neg]
      simpa [h.contains_iff] using hfresh
    have hpush : (table.push m).names = table.names ++ [m.name] := List.map_append
    obtain ⟨hindexed, hmappings⟩ := ih (h.push hfresh) (by simpa [hpush] using hnames)
      fun k hk => hspecial k (List.mem_cons_of_mem m hk)
    rw [List.foldl_cons, hregister]
    refine ⟨hindexed, hmappings.trans ?_⟩
    rw [push, List.append_assoc, List.singleton_append]

theorem builtin_names_nodup : (builtinMappings.map (·.name)).Nodup := by decide +kernel

/-- Every built-in mapping passes the checks for those of a user. -/
theorem builtin_isAdmissible : ∀ m ∈ builtinMappings, m.isAdmissible = true := by decide +kernel

theorem indexed_builtin : builtin.Indexed ∧ builtin.mappings = builtinMappings := by
  refine foldl_register indexed_empty builtin_names_nodup fun m hm => ?_
  exact (Mapping.isAdmissible_iff.mp (builtin_isAdmissible m hm)).2

/-! ## The mappings of a user -/

theorem indexed_foldl (h : table.Indexed) (ms : List Mapping) :
    (ms.foldl registerChecked table).Indexed := by
  induction ms generalizing table with
  | nil => exact h
  | cons m ms ih => exact ih (h.registerChecked m)

theorem foldl_prefix (table : RuleTable) (ms : List Mapping) :
    table.mappings <+: (ms.foldl registerChecked table).mappings := by
  induction ms generalizing table with
  | nil => exact List.prefix_rfl
  | cons m ms ih => exact (table.registerChecked_prefix m).trans (ih _)

theorem indexed_withOverlay (overlay : List Mapping) : (withOverlay overlay).Indexed :=
  indexed_foldl indexed_builtin.1 overlay

theorem withOverlay_append (overlay more : List Mapping) :
    withOverlay (overlay ++ more) = more.foldl registerChecked (withOverlay overlay) :=
  List.foldl_append

theorem withOverlay_concat (overlay : List Mapping) (m : Mapping) : withOverlay (overlay ++ [m]) =
    if m.isAdmissible = true ∧ m.name ∉ (withOverlay overlay).names then
      (withOverlay overlay).push m
    else withOverlay overlay := by
  rw [withOverlay_append]
  exact registerChecked_eq (indexed_withOverlay overlay) m

/-- The first admissible mapping of a name counts, the built-in ones first. -/
theorem get?_withOverlay (overlay : List Mapping) (name : Text) :
    (withOverlay overlay).get? name =
      ((builtinMappings ++ overlay).filter Mapping.isAdmissible).find? (·.name == name) := by
  rw [(indexed_withOverlay overlay).get?_eq_find?]
  induction overlay using List.reverseRecOn with
  | nil =>
    rw [List.append_nil, List.filter_eq_self.mpr builtin_isAdmissible, withOverlay, List.foldl_nil,
      indexed_builtin.2]
  | append_singleton overlay m ih =>
    rw [withOverlay_concat, ← List.append_assoc, List.filter_append, List.find?_append, ← ih]
    split
    next hkept => rw [push, List.find?_append, List.filter_singleton, hkept.1, cond_true]
    next hskip =>
      by_cases hm : m.isAdmissible = true
      · -- A mapping of its name is there already.
        have htaken : m.name ∈ (withOverlay overlay).names := by simpa [hm] using hskip
        rw [List.filter_singleton, hm, cond_true, List.find?_singleton]
        split
        next hname =>
          obtain ⟨k, hk, hsame⟩ := List.mem_map.mp htaken
          have hfound : ((withOverlay overlay).mappings.find? (·.name == name)).isSome := by
            rw [List.find?_isSome]
            exact ⟨k, hk, by simpa [hsame] using hname⟩
          rw [Option.or_of_isSome hfound]
        next => rw [Option.or_none]
      · rw [List.filter_singleton, Bool.eq_false_iff.mpr hm, cond_false, List.find?_nil,
          Option.or_none]

end RuleTable

/-! ## Which mappings are kept -/

/-- The places of the mappings of a user that are registered: each is admissible, and its name is
neither that of a built-in mapping nor that of one registered before. -/
structure Keeps (overlay : List Mapping) (places : List Nat) : Prop where
  increasing : places.Pairwise (· < ·)
  mem_iff : ∀ i, i ∈ places ↔ ∃ m, overlay[i]? = some m ∧ m.isAdmissible = true ∧
    m.name ∉ builtinMappings.map (·.name) ∧
    ∀ j ∈ places, j < i → ∀ k, overlay[j]? = some k → k.name ≠ m.name

/-- A mapping that is registered behind those at the places. -/
def Joins (overlay : List Mapping) (places : List Nat) (m : Mapping) : Prop :=
  m.isAdmissible = true ∧ m.name ∉ builtinMappings.map (·.name) ∧
    ∀ j ∈ places, ∀ k, overlay[j]? = some k → k.name ≠ m.name

variable {overlay : List Mapping} {places places' : List Nat} {m : Mapping}

/-- In the table with the mappings at the places, what can be added is what joins these. -/
theorem joins_iff {table : RuleTable}
    (h : table.mappings = builtinMappings ++ places.filterMap (overlay[·]?)) :
    Joins overlay places m ↔ m.isAdmissible = true ∧ m.name ∉ table.names := by
  rw [Joins, RuleTable.names, h, List.map_append, List.mem_append, not_or]
  refine and_congr_right fun _ => and_congr_right fun _ =>
    ⟨fun hall hmem => ?_, fun hnot j hj k hk hname => ?_⟩
  · obtain ⟨k, hk, hname⟩ := List.mem_map.mp hmem
    obtain ⟨j, hj, hkj⟩ := List.mem_filterMap.mp hk
    exact hall j hj k hkj hname
  · exact hnot (List.mem_map.mpr ⟨k, List.mem_filterMap.mpr ⟨j, hj, hk⟩, hname⟩)

namespace Keeps

theorem lt_length (h : Keeps overlay places) {i : Nat} (hi : i ∈ places) : i < overlay.length := by
  obtain ⟨m, hm, -⟩ := (h.mem_iff i).mp hi
  exact (List.getElem?_eq_some_iff.mp hm).1

/-- One more mapping does not change which of those before are kept. -/
theorem concat (h : Keeps overlay places) (hinc : places'.Pairwise (· < ·))
    (hbefore : ∀ j, j < overlay.length → (j ∈ places' ↔ j ∈ places))
    (hlast : ∀ j ∈ places', j ≤ overlay.length)
    (hnew : overlay.length ∈ places' ↔ Joins overlay places m) :
    Keeps (overlay ++ [m]) places' where
  increasing := hinc
  mem_iff i := by
    have hearlier (hi : i ≤ overlay.length) (m' : Mapping) :
        (∀ j ∈ places', j < i → ∀ k, (overlay ++ [m])[j]? = some k → k.name ≠ m'.name) ↔
          ∀ j ∈ places, j < i → ∀ k, overlay[j]? = some k → k.name ≠ m'.name := by
      refine forall_congr' fun j => ?_
      by_cases hj : j < i
      · rw [List.getElem?_append_left (by omega), hbefore j (by omega)]
      · simp [hj]
    rcases Nat.lt_trichotomy i overlay.length with hlt | rfl | hgt
    · simp only [hearlier (Nat.le_of_lt hlt), hbefore i hlt, List.getElem?_append_left hlt]
      exact h.mem_iff i
    · simp only [hearlier (Nat.le_refl _), hnew, Joins, List.getElem?_concat_length, Option.some.injEq,
        exists_eq_left']
      refine and_congr_right fun _ => and_congr_right fun _ => forall₂_congr fun j hj => ?_
      simp [h.lt_length hj]
    · have hnone : (overlay ++ [m])[i]? = none :=
        List.getElem?_eq_none (by rw [List.length_append]; exact hgt)
      simp only [hnone, reduceCtorEq, false_and, exists_false, iff_false]
      exact fun hi => Nat.not_le_of_lt hgt (hlast i hi)

theorem append_last (h : Keeps overlay places) (hm : Joins overlay places m) :
    Keeps (overlay ++ [m]) (places ++ [overlay.length]) := by
  refine h.concat ?_ (fun j hj => ?_) (fun j hj => ?_) ?_
  · refine List.pairwise_append.mpr ⟨h.increasing, List.pairwise_singleton _ _, ?_⟩
    intro j hj n hn
    rw [List.mem_singleton.mp hn]
    exact h.lt_length hj
  · simp [Nat.ne_of_lt hj]
  · rcases List.mem_append.mp hj with hj | hj
    · exact Nat.le_of_lt (h.lt_length hj)
    · exact Nat.le_of_eq (List.mem_singleton.mp hj)
  · exact iff_of_true (List.mem_append_right _ List.mem_cons_self) hm

theorem skip (h : Keeps overlay places) (hm : ¬Joins overlay places m) :
    Keeps (overlay ++ [m]) places :=
  h.concat h.increasing (fun _ _ => Iff.rfl) (fun _ hj => Nat.le_of_lt (h.lt_length hj))
    (iff_of_false (fun hn => Nat.lt_irrefl _ (h.lt_length hn)) hm)

end Keeps

theorem exists_keeps (overlay : List Mapping) : ∃ places, Keeps overlay places ∧
    (RuleTable.withOverlay overlay).mappings =
      builtinMappings ++ places.filterMap (overlay[·]?) := by
  induction overlay using List.reverseRecOn with
  | nil =>
    refine ⟨[], ⟨List.Pairwise.nil, by simp⟩, ?_⟩
    rw [RuleTable.withOverlay, List.foldl_nil, List.filterMap_nil, List.append_nil,
      RuleTable.indexed_builtin.2]
  | append_singleton overlay m ih =>
    obtain ⟨places, h, hmappings⟩ := ih
    have hsame : places.filterMap ((overlay ++ [m])[·]?) = places.filterMap (overlay[·]?) :=
      List.filterMap_congr fun j hj => List.getElem?_append_left (h.lt_length hj)
    rw [RuleTable.withOverlay_concat]
    by_cases hkept : m.isAdmissible = true ∧ m.name ∉ (RuleTable.withOverlay overlay).names
    · refine ⟨_, h.append_last ((joins_iff hmappings).mpr hkept), ?_⟩
      rw [if_pos hkept, List.filterMap_append, hsame, RuleTable.push, hmappings]
      simp
    · refine ⟨_, h.skip (mt (joins_iff hmappings).mp hkept), ?_⟩
      rw [if_neg hkept, hsame, hmappings]

/-! ## The table of a user -/

/-- The table holds the built-in mappings and behind them, in order, those of the user that are
admissible and whose name is new. The index has the place of each under its name and nothing else.
So the first admissible mapping of a name is the one that is found, and mappings that are added
behind change nothing for a name that has one. -/
theorem first_registration_wins (overlay : List Mapping) :
    let table := RuleTable.withOverlay overlay
    (∃ places, Keeps overlay places ∧
        table.mappings = builtinMappings ++ places.filterMap (overlay[·]?)) ∧
      table.names.Nodup ∧
      (table.index.map Prod.fst).Nodup ∧
      (∀ name i, (name, i) ∈ table.index ↔ ∃ m, table.mappings[i]? = some m ∧ m.name = name) ∧
      (∀ name, table.get? name =
        ((builtinMappings ++ overlay).filter Mapping.isAdmissible).find? (·.name == name)) ∧
      (∀ name, table.contains name = (table.get? name).isSome) ∧
      ∀ more, table.mappings <+: (RuleTable.withOverlay (overlay ++ more)).mappings ∧
        ∀ name, table.contains name = true →
          (RuleTable.withOverlay (overlay ++ more)).get? name = table.get? name ∧
            (RuleTable.withOverlay (overlay ++ more)).position? name = table.position? name := by
  intro table
  have h : table.Indexed := RuleTable.indexed_withOverlay overlay
  refine ⟨exists_keeps overlay, h.names_nodup, h.keys_nodup, h.mem_index,
    RuleTable.get?_withOverlay overlay, h.contains_eq, fun more => ?_⟩
  have hfront : table.mappings <+: (RuleTable.withOverlay (overlay ++ more)).mappings := by
    rw [RuleTable.withOverlay_append]
    exact table.foldl_prefix more
  exact ⟨hfront, fun name hname =>
    h.of_prefix (RuleTable.indexed_withOverlay (overlay ++ more)) hfront hname⟩

/-- A built-in name, a new one, a name with a blank, and the name of a special command. -/
def clashingOverlay : List Mapping :=
  [{ name := "ls".toList, verb := "dir".toList }, { name := "tac".toList, verb := "first".toList },
    { name := "a b".toList, verb := "x".toList }, { name := "head".toList, verb := "x".toList }]

theorem first_registration_wins_clashingOverlay :
    (RuleTable.withOverlay clashingOverlay).contains "tac".toList = true ∧
      (RuleTable.withOverlay clashingOverlay).position? "tac".toList = some 31 ∧
      ((RuleTable.withOverlay clashingOverlay).get? "ls".toList).map (·.verb) =
        some "Get-ChildItem".toList ∧
      (RuleTable.withOverlay clashingOverlay).contains "head".toList = false ∧
      ((RuleTable.withOverlay
          (clashingOverlay ++ [{ name := "tac".toList, verb := "second".toList }])).get?
        "tac".toList).map (·.verb) = some "first".toList := by
  obtain ⟨-, -, -, -, -, -, hlater⟩ := first_registration_wins clashingOverlay
  obtain ⟨htac, hplace, hls, hhead, hfirst⟩ :
      (RuleTable.withOverlay clashingOverlay).contains "tac".toList = true ∧
        (RuleTable.withOverlay clashingOverlay).position? "tac".toList = some 31 ∧
        ((RuleTable.withOverlay clashingOverlay).get? "ls".toList).map (·.verb) =
          some "Get-ChildItem".toList ∧
        (RuleTable.withOverlay clashingOverlay).contains "head".toList = false ∧
        ((RuleTable.withOverlay clashingOverlay).get? "tac".toList).map (·.verb) =
          some "first".toList := by
    decide +kernel
  have hget := ((hlater [{ name := "tac".toList, verb := "second".toList }]).2 _ htac).1
  refine ⟨htac, hplace, hls, hhead, ?_⟩
  rw [hget]
  exact hfirst

end CrossShell
