import CrossShell.Proofs.Token.Expansions

/-!
# Fusion by index

The passes as loops over the places of their tokens, in which every access can fail: an index may be
out of range, a slice may cut a character or run backwards, and a counter may fall below zero. On
the tokens of a line nothing of this happens.

* `Text.slice?`: a slice that is checked. `Text.slice?_eq_some_iff`: when it is one.
* `Fusion.reachBy?`: where the unit of a pass ends that starts at a place. How the end of a group is
  searched is a parameter, and `Fusion.reach?` is the case of `groupEnd?`.
* `Fusion.runBy?`, `Fusion.run?`: the pass as a loop. It fails as well if it needs more rounds than
  there are tokens.
* `Fusion.run?_eq_some`: the loop ends, and gives what the pass gives.
-/

namespace CrossShell

/-! ## Slices -/

namespace Text

/-- The first `n` bytes of a text and what is behind them, unless the cut is inside of a character
or behind the end. -/
def splitBytes? : Nat → Text → Option (Text × Text)
  | 0, t => some ([], t)
  | _ + 1, [] => none
  | n + 1, c :: cs =>
    if c.utf8Size ≤ n + 1 then
      (splitBytes? (n + 1 - c.utf8Size) cs).map fun (front, rest) => (c :: front, rest)
    else none

/-- The bytes from `start` up to and without `stop`, if these are characters of the text. -/
def slice? (start stop : Nat) (t : Text) : Option Text :=
  if start ≤ stop then
    (splitBytes? start t).bind fun (_, rest) => (splitBytes? (stop - start) rest).map Prod.fst
  else none

theorem splitBytes?_append (u r : Text) : splitBytes? (size u) (u ++ r) = some (u, r) := by
  induction u with
  | nil => cases r <;> rfl
  | cons c u ih =>
    obtain ⟨n, hn⟩ : ∃ n, c.utf8Size + size u = n + 1 :=
      ⟨c.utf8Size + size u - 1, by have := c.utf8Size_pos; omega⟩
    have hle : c.utf8Size ≤ n + 1 := by omega
    have hrest : n + 1 - c.utf8Size = size u := by omega
    simp [hn, splitBytes?, hle, hrest, ih]

theorem eq_append_of_splitBytes? {n : Nat} {t u r : Text} (h : splitBytes? n t = some (u, r)) :
    t = u ++ r ∧ n = size u := by
  induction t generalizing n u with
  | nil =>
    cases n with
    | zero =>
      cases h
      exact ⟨rfl, rfl⟩
    | succ n => cases h
  | cons c cs ih =>
    cases n with
    | zero =>
      cases h
      exact ⟨rfl, rfl⟩
    | succ n =>
      rw [splitBytes?] at h
      split at h
      · obtain ⟨⟨front, rest⟩, hsplit, heq⟩ := Option.map_eq_some_iff.mp h
        cases heq
        obtain ⟨rfl, hsize⟩ := ih hsplit
        exact ⟨rfl, by rw [size_cons]; omega⟩
      · cases h

/-- A checked slice is the part of the text with these bytes. -/
theorem slice?_eq_some_iff {start stop : Nat} {t v : Text} : slice? start stop t = some v ↔
    ∃ u w, t = u ++ v ++ w ∧ start = size u ∧ stop = size u + size v := by
  constructor
  · intro h
    rw [slice?] at h
    split at h
    · obtain ⟨⟨u, rest⟩, hstart, hrest⟩ := Option.bind_eq_some_iff.mp h
      obtain ⟨⟨front, w⟩, hstop, heq⟩ := Option.map_eq_some_iff.mp hrest
      obtain rfl : front = v := heq
      obtain ⟨rfl, rfl⟩ := eq_append_of_splitBytes? hstart
      obtain ⟨rfl, hsize⟩ := eq_append_of_splitBytes? hstop
      exact ⟨u, w, by simp, rfl, by omega⟩
    · cases h
  · rintro ⟨u, w, rfl, rfl, rfl⟩
    simp [slice?, splitBytes?_append]

end Text

theorem Token.At.slice? {line : Text} {t : Token} (h : t.At line) :
    Text.slice? t.start t.stop line = some t.value :=
  Text.slice?_eq_some_iff.mpr h

/-! ## The passes by index -/

/-- One less, unless that is below zero. -/
def pred? : Nat → Option Nat
  | 0 => none
  | n + 1 => some n

/-- The place of the token that closes a group, among tokens of which the first stands at place `i`.
`depth` groups are open before them. It fails if a token closes more than is open. -/
def closingPlace? (opener closer : Text) : (i depth : Nat) → List Token → Option (Option Nat)
  | _, _, [] => some none
  | i, depth, t :: ts =>
    if t.isBare opener then closingPlace? opener closer (i + 1) (depth + 1) ts
    else if t.isBare closer then
      (pred? depth).bind fun depth =>
        if depth = 0 then some (some i) else closingPlace? opener closer (i + 1) depth ts
    else closingPlace? opener closer (i + 1) depth ts

/-- The last place of the group that opens at place `i`. A group that is not closed goes on to the
last token. -/
def groupEnd? (opener closer : Text) (ts : List Token) (i : Nat) : Option Nat :=
  (closingPlace? opener closer i 0 (ts.drop i)).bind fun
    | some stop => some stop
    | none => pred? ts.length

/-- A search for the last place of a group, from its opener and its closer, the tokens, and the
place where it opens. -/
abbrev GroupSearch := Text → Text → List Token → Nat → Option Nat

/-- The last place of the tokens from place `i` on that touch each other and are no operators. The
tokens behind place `i` are `rest`. -/
def adjacentEnd? (ts : List Token) : (i : Nat) → (rest : List Token) → Option Nat
  | i, [] => some i
  | i, next :: rest => ts[i]?.bind fun last =>
    if last.touches next && !next.isOperator then adjacentEnd? ts (i + 1) rest else some i

/-- The place up to which tokens are taken along that touch the one at place `i`. -/
def extendEnd? (ts : List Token) (i : Nat) : Option Nat := adjacentEnd? ts i (ts.drop (i + 1))

/-- One place further, if the token there passes a test and touches the one at place `i`. -/
def advance? (ts : List Token) (test : Token → Bool) (i : Nat) : Option Nat :=
  match ts[i + 1]? with
  | none => some i
  | some next => ts[i]?.map fun last => if test next && last.touches next then i + 1 else i

namespace Fusion

/-- Whether a token behind `t` passes a test and touches `t`. -/
def meets (t : Token) (next : Option Token) (test : Token → Bool) : Bool :=
  next.any fun next => test next && t.touches next

/-- The last place of the unit of a token that ends in `$` and stands at place `i`. -/
def dollarGroupReachBy? (search : GroupSearch) (opener closer : Text) (ts : List Token) (i : Nat)
    (t : Token) : Option (Option Nat) :=
  if t.quote.isNone && t.value.getLast? == some '$' && meets t ts[i + 1]? (·.isBare opener) then
    ((search opener closer ts (i + 1)).bind (extendEnd? ts)).map some
  else some none

/-- The last place of the unit of a redirection at place `i`: an `&` and then a target, as far as
they touch. -/
def descriptorRedirectionReach? (ts : List Token) (i : Nat) (t : Token) : Option (Option Nat) :=
  let descriptor := t.isDescriptor && meets t ts[i + 1]? Token.isRedirectOperator
  if descriptor || t.isRedirectOperator && meets t ts[i + 1]? (·.isBare "&") then
    ((advance? ts (·.isBare "&") (if descriptor then i + 1 else i)).bind
      (advance? ts fun next => !next.isOperator && !next.isBare "&")).map some
  else some none

/-- The last place of the unit of a pair of braces at place `i`. -/
def emptyBracesReach? (ts : List Token) (i : Nat) (t : Token) : Option (Option Nat) :=
  if t.isBare "\x7b" && meets t ts[i + 1]? (·.isBare "\x7d") then
    (extendEnd? ts (i + 1)).map some
  else some none

/-- The place of the delimiter of a here-document that starts at place `i`. -/
def heredocReach? (ts : List Token) (i : Nat) (t : Token) : Option (Option Nat) :=
  some (if t.isBare "<<" && ts[i + 1]?.any (!·.isOperator) then some (i + 1) else none)

/-- The last place of the unit of a process substitution at place `i`. -/
def processSubstitutionReachBy? (search : GroupSearch) (ts : List Token) (i : Nat) (t : Token) :
    Option (Option Nat) :=
  if (t.isBare "<" || t.isBare ">") && meets t ts[i + 1]? (·.isBare "(") then
    (search "(" ")" ts (i + 1)).map some
  else some none

/-- The last place of the unit of a pass that starts at place `i`, if it has more than one token,
with a given search for the ends of groups. -/
def reachBy? (search : GroupSearch) (pass : Fusion) (ts : List Token) (i : Nat) :
    Option (Option Nat) :=
  ts[i]?.bind <| match pass with
    | commandSubstitution => dollarGroupReachBy? search "(" ")" ts i
    | braceExpansion => dollarGroupReachBy? search "\x7b" "\x7d" ts i
    | emptyBraces => emptyBracesReach? ts i
    | heredoc => heredocReach? ts i
    | processSubstitution => processSubstitutionReachBy? search ts i
    | descriptorRedirection => descriptorRedirectionReach? ts i

/-- The last place of the unit of a pass that starts at place `i`, if it has more than one token. -/
def reach? (pass : Fusion) (ts : List Token) (i : Nat) : Option (Option Nat) :=
  pass.reachBy? groupEnd? ts i

/-- The token of the run from place `i` to place `stop`. -/
def mergeRun? (line : Text) (ts : List Token) (i stop : Nat) : Option Token :=
  if i ≤ stop then
    ts[i]?.bind fun first => ts[stop]?.bind fun last =>
      (Text.slice? first.start last.stop line).map (⟨·, first.start, last.stop, none⟩)
  else none

/-- The tokens that a pass makes from place `i` on, in at most `rounds` rounds. What a round reaches
is given. -/
def loop? (reach : Nat → Option (Option Nat)) (line : Text) (ts : List Token) :
    (rounds i : Nat) → Option (List Token)
  | 0, i => if i < ts.length then none else some []
  | rounds + 1, i =>
    if i < ts.length then
      (reach i).bind fun
        | none => ts[i]?.bind fun t => (loop? reach line ts rounds (i + 1)).map (t :: ·)
        | some stop => (mergeRun? line ts i stop).bind fun t =>
          (loop? reach line ts rounds (stop + 1)).map (t :: ·)
    else some []

/-- A pass as a loop in which every access is checked, in at most as many rounds as tokens, with a
given search for the ends of groups. -/
def runBy? (search : GroupSearch) (pass : Fusion) (line : Text) (ts : List Token) :
    Option (List Token) :=
  loop? (pass.reachBy? search ts) line ts ts.length 0

/-- A pass as a loop in which every access is checked, in at most as many rounds as tokens. -/
def run? (pass : Fusion) (line : Text) (ts : List Token) : Option (List Token) :=
  pass.runBy? groupEnd? line ts

end Fusion

/-! ## Where the units end -/

variable {ts us : List Token} {t : Token} {i : Nat}

theorem getElem?_of_drop (h : ts.drop i = t :: us) : ts[i]? = some t := by
  rw [← List.head?_drop, h, List.head?_cons]

theorem drop_succ_of_drop (h : ts.drop i = t :: us) : ts.drop (i + 1) = us := by
  rw [← List.drop_drop, h, List.drop_one, List.tail_cons]

theorem getElem?_succ_of_drop (h : ts.drop i = t :: us) : ts[i + 1]? = us.head? := by
  rw [← List.head?_drop, drop_succ_of_drop h]

theorem length_of_drop (h : ts.drop i = t :: us) : ts.length = i + us.length + 1 := by
  have hlength := congrArg List.length h
  simp only [List.length_drop, List.length_cons] at hlength
  omega

/-- In a group the counter never falls below zero, and the group ends where its length says. -/
theorem closingPlace?_eq (opener closer : Text) (depth i : Nat) (ts : List Token) :
    ∃ found, closingPlace? opener closer i (depth + 1) ts = some found ∧
      ∀ last, last + 1 = i + ts.length →
        found.getD last + 1 = i + groupLength opener closer (depth + 1) ts := by
  induction ts generalizing i depth with
  | nil => exact ⟨none, rfl, fun last hlast => hlast⟩
  | cons t ts ih =>
    simp only [closingPlace?, groupLength, List.length_cons]
    by_cases ho : t.isBare opener = true
    · obtain ⟨found, hfound, hplace⟩ := ih (depth + 1) (i + 1)
      refine ⟨found, by simp [ho, hfound], fun last hlast => ?_⟩
      rw [if_pos ho, hplace last (by omega)]
      omega
    by_cases hc : t.isBare closer = true
    · cases depth with
      | zero => exact ⟨some i, by simp [ho, hc, pred?], fun last _ => by simp [ho, hc]⟩
      | succ depth =>
        obtain ⟨found, hfound, hplace⟩ := ih depth (i + 1)
        refine ⟨found, by simp [ho, hc, pred?, hfound], fun last hlast => ?_⟩
        simp [ho, hc, hplace last (by omega)]
        omega
    · obtain ⟨found, hfound, hplace⟩ := ih depth (i + 1)
      refine ⟨found, by simp [ho, hc, hfound], fun last hlast => ?_⟩
      simp [ho, hc, hplace last (by omega)]
      omega

/-- Where a group opens, nothing fails, and its last place is where its length says. -/
theorem exists_groupEnd? {opener : Text} (closer : Text) (h : ts.drop i = t :: us)
    (ho : t.isBare opener = true) :
    ∃ c, groupEnd? opener closer ts i = some c ∧
      c + 1 = i + groupLength opener closer 0 (t :: us) := by
  obtain ⟨found, hfound, hplace⟩ := closingPlace?_eq opener closer 0 (i + 1) us
  have hlength := length_of_drop h
  have hlast := hplace (i + us.length) (by omega)
  rw [groupEnd?, h, closingPlace?, if_pos ho, hfound, groupLength, if_pos ho]
  cases found with
  | some stop =>
    simp only [Option.getD_some] at hlast
    exact ⟨stop, rfl, by omega⟩
  | none =>
    simp only [Option.getD_none] at hlast
    exact ⟨i + us.length, by rw [hlength]; rfl, by omega⟩

theorem groupEnd?_eq {opener closer : Text} (h : ts.drop (i + 1) = t :: us)
    (ho : t.isBare opener = true) :
    groupEnd? opener closer ts (i + 1) = some (i + groupLength opener closer 0 (t :: us)) := by
  obtain ⟨c, hend, hc⟩ := exists_groupEnd? closer h ho
  rw [hend, Option.some.injEq]
  omega

theorem adjacentEnd?_eq {last : Token} (h : ts.drop i = last :: us) :
    adjacentEnd? ts i us = some (i + adjacentLength last us) := by
  induction us generalizing i last with
  | nil => rfl
  | cons next us ih =>
    rw [adjacentEnd?, getElem?_of_drop h, adjacentLength, Option.bind_some]
    split
    · rw [ih (drop_succ_of_drop h)]
      congr 1
      omega
    · rfl

theorem extendEnd?_eq (h : ts.drop i = t :: us) {n : Nat} (hn : n ≤ us.length) :
    extendEnd? ts (i + n) = some (i + withAdjacent t us n) := by
  have hdrop : ts.drop (i + n) = (us.take n).getLast?.getD t :: us.drop n := by
    rw [← List.drop_drop, h]
    cases n with
    | zero => rfl
    | succ n =>
      rw [List.drop_succ_cons, List.drop_eq_getElem_cons (by omega), List.getLast?_take]
      simp [List.getElem?_eq_getElem (show n < us.length by omega)]
  rw [extendEnd?, drop_succ_of_drop hdrop, adjacentEnd?_eq hdrop, withAdjacent, Nat.add_assoc]

theorem advance?_eq {last : Token} (test : Token → Bool) (h : ts.drop i = last :: us) :
    advance? ts test i =
      some (if us.head?.any fun next => test next && last.touches next then i + 1 else i) := by
  rw [advance?, getElem?_succ_of_drop h]
  cases us with
  | nil => rfl
  | cons next us => simp [getElem?_of_drop h]

theorem groupLength_le (opener closer : Text) (depth : Nat) (ts : List Token) :
    groupLength opener closer depth ts ≤ ts.length := by
  induction ts generalizing depth with
  | nil => exact Nat.le_refl 0
  | cons t ts ih =>
    have hup := ih (depth + 1)
    have hdown := ih (depth - 1)
    have hsame := ih depth
    rw [groupLength, List.length_cons]
    split
    · omega
    · split
      · split <;> omega
      · omega

theorem groupLength_pos (opener closer : Text) (depth : Nat) (t : Token) (ts : List Token) :
    0 < groupLength opener closer depth (t :: ts) := by
  rw [groupLength]
  split
  · omega
  · split
    · split <;> omega
    · omega

theorem withAdjacent_le {n : Nat} (hn : n ≤ us.length) : withAdjacent t us n ≤ us.length := by
  have := adjacentLength_le ((us.take n).getLast?.getD t) (us.drop n)
  rw [List.length_drop] at this
  rw [withAdjacent]
  omega

namespace Fusion

/-- The place that a unit of `n` more tokens reaches, if it has any. -/
def reached (i n : Nat) : Option Nat := if n = 0 then none else some (i + n)

theorem reached_of_pos {n : Nat} (h : 0 < n) : reached i n = some (i + n) := if_neg (by omega)

theorem dollarGroupReachBy?_groupEnd? (opener closer : Text) (h : ts.drop i = t :: us) :
    dollarGroupReachBy? groupEnd? opener closer ts i t =
      some (reached i (dollarGroupExtent opener closer t us)) := by
  rw [dollarGroupReachBy?, getElem?_succ_of_drop h]
  cases us with
  | nil => simp [meets, dollarGroupExtent, reached]
  | cons next us =>
    simp only [meets, List.head?_cons, Option.any_some, dollarGroupExtent, ← Bool.and_assoc]
    split
    next hcond =>
      have ho : next.isBare opener = true := by simp_all
      have hpos : 0 < withAdjacent t (next :: us) (groupLength opener closer 0 (next :: us)) :=
        Nat.add_pos_left (groupLength_pos ..) _
      rw [groupEnd?_eq (drop_succ_of_drop h) ho, Option.bind_some,
        extendEnd?_eq h (groupLength_le ..), reached_of_pos hpos, Option.map_some]
    next => rfl

theorem emptyBracesReach?_eq (h : ts.drop i = t :: us) :
    emptyBracesReach? ts i t = some (reached i (emptyBracesExtent t us)) := by
  rw [emptyBracesReach?, getElem?_succ_of_drop h]
  cases us with
  | nil => simp [meets, emptyBracesExtent, reached]
  | cons next us =>
    simp only [meets, List.head?_cons, Option.any_some, emptyBracesExtent, ← Bool.and_assoc]
    split
    · have hpos : 0 < withAdjacent t (next :: us) 1 := Nat.add_pos_left Nat.one_pos _
      rw [extendEnd?_eq h (by simp), reached_of_pos hpos, Option.map_some]
    · rfl

theorem heredocReach?_eq (h : ts.drop i = t :: us) :
    heredocReach? ts i t = some (reached i (heredocExtent t us)) := by
  rw [heredocReach?, getElem?_succ_of_drop h]
  cases us with
  | nil => simp [heredocExtent, reached]
  | cons next us =>
    show some (if (t.isBare "<<" && !next.isOperator) = true then some (i + 1) else none) = _
    rw [heredocExtent]
    split <;> rfl

theorem processSubstitutionReachBy?_groupEnd? (h : ts.drop i = t :: us) :
    processSubstitutionReachBy? groupEnd? ts i t =
      some (reached i (processSubstitutionExtent t us)) := by
  rw [processSubstitutionReachBy?, getElem?_succ_of_drop h]
  cases us with
  | nil => simp [meets, processSubstitutionExtent, reached]
  | cons next us =>
    simp only [meets, List.head?_cons, Option.any_some, processSubstitutionExtent,
      ← Bool.and_assoc]
    split
    next hcond =>
      have ho : next.isBare "(" = true := by simp_all
      rw [groupEnd?_eq (drop_succ_of_drop h) ho, reached_of_pos (groupLength_pos ..),
        Option.map_some]
    next => rfl

theorem any_duplication (last : Token) (us : List Token) :
    (us.head?.any fun next => next.isBare "&" && last.touches next) =
      startsDuplication last us := by
  cases us <;> rfl

theorem any_target (last : Token) (us : List Token) :
    (us.head?.any fun next => !next.isOperator && !next.isBare "&" && last.touches next) =
      startsTarget last us := by
  cases us with
  | nil => rfl
  | cons next us =>
    simp only [List.head?_cons, Option.any_some, startsTarget]
    rw [Bool.and_comm, Bool.and_assoc]

theorem targetReach?_eq {last : Token} (h : ts.drop i = last :: us) :
    (advance? ts (·.isBare "&") i).bind
      (advance? ts fun next => !next.isOperator && !next.isBare "&") =
      some (i + targetExtent last us) := by
  rw [advance?_eq _ h, any_duplication, Option.bind_some]
  unfold targetExtent
  by_cases hdup : startsDuplication last us = true
  · rw [if_pos hdup, if_pos hdup]
    cases us with
    | nil => cases hdup
    | cons amp rest =>
      rw [advance?_eq _ (drop_succ_of_drop h), any_target]
      by_cases htarget : startsTarget amp rest = true <;> simp [htarget]
  · rw [if_neg hdup, if_neg hdup, advance?_eq _ h, any_target]
    by_cases htarget : startsTarget last us = true <;> simp [htarget]

theorem descriptorRedirectionReach?_eq (h : ts.drop i = t :: us) :
    descriptorRedirectionReach? ts i t = some (reached i (descriptorRedirectionExtent t us)) := by
  rw [descriptorRedirectionReach?, getElem?_succ_of_drop h]
  cases us with
  | nil => simp [meets, descriptorRedirectionExtent, reached]
  | cons next us =>
    simp only [meets, List.head?_cons, Option.any_some, descriptorRedirectionExtent,
      ← Bool.and_assoc]
    by_cases hdesc : (t.isDescriptor && next.isRedirectOperator && t.touches next) = true
    · rw [if_pos (by rw [hdesc, Bool.true_or]), if_pos hdesc, if_pos hdesc,
        targetReach?_eq (drop_succ_of_drop h), reached_of_pos (Nat.succ_pos _), Option.map_some]
      congr 2
      omega
    by_cases hdup : (t.isRedirectOperator && next.isBare "&" && t.touches next) = true
    · have hstarts : startsDuplication t (next :: us) = true := by
        rw [Bool.and_assoc, Bool.and_eq_true] at hdup
        exact hdup.2
      have hpos : 0 < targetExtent t (next :: us) := by
        unfold targetExtent
        rw [if_pos hstarts]
        dsimp only
        split <;> omega
      rw [if_pos (by rw [hdup, Bool.or_true]), if_neg hdesc, if_neg hdesc, if_pos hdup,
        targetReach?_eq h, reached_of_pos hpos, Option.map_some]
    · rw [if_neg (by simp_all), if_neg hdesc, if_neg hdup]
      rfl

/-- Every access in a round of a pass succeeds. The unit reaches as far as its extent says. -/
theorem reach?_eq (pass : Fusion) (h : ts.drop i = t :: us) :
    pass.reach? ts i = some (reached i (pass.extent t us)) := by
  unfold reach? reachBy?
  rw [getElem?_of_drop h, Option.bind_some]
  cases pass with
  | commandSubstitution => exact dollarGroupReachBy?_groupEnd? _ _ h
  | braceExpansion => exact dollarGroupReachBy?_groupEnd? _ _ h
  | emptyBraces => exact emptyBracesReach?_eq h
  | heredoc => exact heredocReach?_eq h
  | processSubstitution => exact processSubstitutionReachBy?_groupEnd? h
  | descriptorRedirection => exact descriptorRedirectionReach?_eq h

theorem extent_le (pass : Fusion) (t : Token) (us : List Token) :
    pass.extent t us ≤ us.length := by
  cases us with
  | nil => cases pass <;> exact Nat.le_refl 0
  | cons next us =>
    have hdollar (opener closer : Text) :
        dollarGroupExtent opener closer t (next :: us) ≤ (next :: us).length := by
      rw [dollarGroupExtent]
      split
      · exact withAdjacent_le (groupLength_le ..)
      · exact Nat.zero_le _
    cases pass with
    | commandSubstitution => exact hdollar _ _
    | braceExpansion => exact hdollar _ _
    | emptyBraces =>
      rw [extent, emptyBracesExtent]
      split
      · exact withAdjacent_le (by simp)
      · exact Nat.zero_le _
    | heredoc =>
      rw [extent, heredocExtent]
      split <;> simp
    | processSubstitution =>
      rw [extent, processSubstitutionExtent]
      split
      · exact groupLength_le ..
      · exact Nat.zero_le _
    | descriptorRedirection => exact descriptorRedirectionExtent_le t (next :: us)

end Fusion

/-! ## The loop -/

/-- A unit of several tokens is the slice from the first to the last of them. -/
theorem exists_slice?_glue {line : Text} {inner : List Token} {last : Token}
    (horder : InOrder (t :: (inner ++ [last]))) (hat : ∀ u ∈ t :: (inner ++ [last]), u.At line) :
    ∃ value, Text.slice? t.start last.stop line = some value ∧
      glue line t (inner ++ [last]) = ⟨value, t.start, last.stop, none⟩ := by
  have hslice := (at_glue horder hat).1.slice?
  rw [glue_start, glue_stop, List.getLast?_concat, Option.getD_some] at hslice
  exact ⟨_, hslice, by simp [glue, Token.merge]⟩

namespace Fusion

variable {line : Text}

theorem mergeRun?_eq (horder : InOrder ts) (hat : ∀ t ∈ ts, t.At line) (h : ts.drop i = t :: us)
    {n : Nat} (hpos : 0 < n) (hn : n ≤ us.length) :
    mergeRun? line ts i (i + n) = some (glue line t (us.take n)) := by
  obtain ⟨n, rfl⟩ : ∃ m, n = m + 1 := ⟨n - 1, by omega⟩
  have hlast : ts[i + (n + 1)]? = some us[n] := by
    rw [← List.getElem?_drop, h, List.getElem?_cons_succ, List.getElem?_eq_getElem]
  have hunit := unit_sublist h (n + 1)
  rw [List.take_succ_eq_append_getElem hn] at hunit ⊢
  obtain ⟨value, hslice, hglue⟩ :=
    exists_slice?_glue (horder.sublist hunit) fun u hu => hat u (hunit.subset hu)
  rw [mergeRun?, if_pos (by omega), getElem?_of_drop h, hlast, hglue]
  simp only [Option.bind_some, hslice, Option.map_some]

/-- From a place on, the loop gives what the pass makes of the tokens there. -/
theorem loop?_eq_some (pass : Fusion) (horder : InOrder ts) (hat : ∀ t ∈ ts, t.At line)
    (rounds i : Nat) (hrounds : ts.length ≤ i + rounds) :
    loop? (pass.reach? ts) line ts rounds i = some (coalesce line pass.extent 0 (ts.drop i)) := by
  induction rounds generalizing i with
  | zero =>
    rw [loop?, if_neg (by omega), List.drop_of_length_le (by omega)]
    rfl
  | succ rounds ih =>
    cases hdrop : ts.drop i with
    | nil =>
      rw [loop?, if_neg (by simpa using hdrop)]
      rfl
    | cons t us =>
      have hlength := length_of_drop hdrop
      rw [loop?, if_pos (by omega), reach?_eq pass hdrop, Option.bind_some, coalesce_zero_cons]
      by_cases hzero : pass.extent t us = 0
      · simp only [hzero, reached]
        rw [getElem?_of_drop hdrop, ih _ (by omega), drop_succ_of_drop hdrop]
        rfl
      · rw [reached_of_pos (by omega)]
        have hle := pass.extent_le t us
        simp only
        rw [mergeRun?_eq horder hat hdrop (by omega) hle, ih _ (by omega)]
        have hrest : ts.drop (i + pass.extent t us + 1) = us.drop (pass.extent t us) := by
          rw [Nat.add_right_comm, ← List.drop_drop, drop_succ_of_drop hdrop]
        rw [hrest]
        rfl

/-- On tokens in order that are slices of the line, the loop ends, every access succeeds, and it
gives what the pass gives. -/
theorem run?_eq_some (pass : Fusion) (horder : InOrder ts) (hat : ∀ t ∈ ts, t.At line) :
    pass.run? line ts = some (pass.apply line ts) := by
  exact pass.loop?_eq_some horder hat _ 0 (by omega)

end Fusion

end CrossShell
