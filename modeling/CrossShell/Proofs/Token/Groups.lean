import CrossShell.Token.Fusion
import Mathlib.Data.List.Infix

/-!
# Groups of tokens

A group goes from an opening token to the first token behind it that balances it, counting only
tokens of its own kind. A group that nothing balances goes on to the last token.

* `Bracket`: the kinds of groups.
* `Bracket.Within`: tokens in which the groups that are open before them stay open.
* `Bracket.Group`: a group and the tokens behind it. `exists_group`: every opening token starts one.
* `groupLength_of_group`: the fusion passes find the same end of a group.
-/

namespace CrossShell

/-- No token reads as two texts. -/
theorem Token.isBare_of_ne {t : Token} {v w : Text} (h : t.isBare v = true) (hne : v ≠ w) :
    t.isBare w = false := by
  rw [isBare, Bool.and_eq_true, beq_iff_eq] at h
  rw [isBare, h.2, beq_false_of_ne hne, Bool.and_false]

/-- The kinds of groups. -/
inductive Bracket where
  /-- `(` and `)` -/
  | paren
  /-- `{` and `}` -/
  | brace
  deriving DecidableEq, Repr

namespace Bracket

/-- The text that opens a group. -/
def opener : Bracket → Text
  | paren => ['(']
  | brace => ['{']

/-- The text that closes a group. -/
def closer : Bracket → Text
  | paren => [')']
  | brace => ['}']

variable (k : Bracket)

/-- The number of tokens that open a group. -/
def opens (ts : List Token) : Nat := ts.countP (·.isBare k.opener)

/-- The number of tokens that close a group. -/
def closes (ts : List Token) : Nat := ts.countP (·.isBare k.closer)

@[simp] theorem opens_nil : k.opens [] = 0 := rfl

@[simp] theorem closes_nil : k.closes [] = 0 := rfl

theorem opens_cons (t : Token) (ts : List Token) :
    k.opens (t :: ts) = k.opens ts + if t.isBare k.opener then 1 else 0 :=
  List.countP_cons

theorem closes_cons (t : Token) (ts : List Token) :
    k.closes (t :: ts) = k.closes ts + if t.isBare k.closer then 1 else 0 :=
  List.countP_cons

theorem opens_append (ts us : List Token) : k.opens (ts ++ us) = k.opens ts + k.opens us :=
  List.countP_append

theorem closes_append (ts us : List Token) : k.closes (ts ++ us) = k.closes ts + k.closes us :=
  List.countP_append

/-- An opening token closes nothing, of either kind. -/
theorem isBare_closer_of_opener {k k' : Bracket} {t : Token} (h : t.isBare k.opener = true) :
    t.isBare k'.closer = false :=
  Token.isBare_of_ne h (by cases k <;> cases k' <;> decide)

theorem isBare_opener_of_closer {k k' : Bracket} {t : Token} (h : t.isBare k.closer = true) :
    t.isBare k'.opener = false := by
  refine Bool.eq_false_iff.mpr fun hopen => ?_
  rw [isBare_closer_of_opener hopen] at h
  cases h

/-- A token that opens a group of one kind opens none of the other. -/
theorem isBare_opener_of_ne {k k' : Bracket} {t : Token} (h : t.isBare k.opener = true)
    (hne : k ≠ k') : t.isBare k'.opener = false :=
  Token.isBare_of_ne h (by cases k <;> cases k' <;> first | decide | exact absurd rfl hne)

/-- Behind each of the tokens, at most `e` more groups have been closed than opened: if more than `e`
groups were open before them, then one of these stays open. -/
def Within (e : Nat) (ts : List Token) : Prop :=
  ∀ us, us <+: ts → k.closes us ≤ e + k.opens us

/-- Tokens in which every group is closed and none that was open before them is. -/
def Balanced (ts : List Token) : Prop := k.Within 0 ts ∧ k.closes ts = k.opens ts

instance (e : Nat) (ts : List Token) : Decidable (k.Within e ts) :=
  decidable_of_iff (∀ us ∈ ts.inits, k.closes us ≤ e + k.opens us) <| by
    simp only [List.mem_inits, Within]

instance (ts : List Token) : Decidable (k.Balanced ts) := inferInstanceAs (Decidable (_ ∧ _))

variable {k}

theorem within_nil (e : Nat) : k.Within e [] := by
  intro us hus
  rw [List.prefix_nil.mp hus]
  simp

/-- What the first of the tokens leaves to the others. -/
theorem within_cons_iff {e : Nat} {t : Token} {ts : List Token} :
    k.Within e (t :: ts) ↔
      if t.isBare k.opener then k.Within (e + 1) ts
      else if t.isBare k.closer then 0 < e ∧ k.Within (e - 1) ts
      else k.Within e ts := by
  have hcons : k.Within e (t :: ts) ↔
      ∀ us, us <+: ts → k.closes (t :: us) ≤ e + k.opens (t :: us) := by
    constructor
    · intro h us hus
      exact h _ (List.cons_prefix_cons.mpr ⟨rfl, hus⟩)
    · intro h us hus
      cases us with
      | nil => simp
      | cons u us =>
        obtain ⟨rfl, husts⟩ := List.cons_prefix_cons.mp hus
        exact h us husts
  rw [hcons]
  simp only [closes_cons, opens_cons]
  by_cases ho : t.isBare k.opener = true
  · rw [if_pos ho, if_pos ho, isBare_closer_of_opener ho]
    simp only [Bool.false_eq_true, ↓reduceIte, Within]
    exact forall₂_congr fun us _ => by omega
  by_cases hc : t.isBare k.closer = true
  · rw [if_neg ho, if_neg ho, if_pos hc, if_pos hc]
    constructor
    · intro h
      have hnone := h [] ⟨ts, rfl⟩
      simp only [closes_nil, opens_nil] at hnone
      refine ⟨by omega, fun us hus => ?_⟩
      have := h us hus
      omega
    · rintro ⟨hpos, h⟩ us hus
      have := h us hus
      omega
  · rw [if_neg ho, if_neg ho, if_neg hc, if_neg hc]
    exact Iff.rfl

/-- A group, from the token that opens it to the first one that balances it, and the tokens behind
it. If no token balances it, it goes on to the last token. -/
inductive Group (k : Bracket) : List Token → List Token → Prop
  /-- A group that is closed. -/
  | closed {o c : Token} {inner : List Token} (ho : o.isBare k.opener = true)
      (hinner : k.Balanced inner) (hc : c.isBare k.closer = true) (behind : List Token) :
      Group k (o :: (inner ++ [c])) behind
  /-- A group that is not closed. -/
  | unclosed {o : Token} {inner : List Token} (ho : o.isBare k.opener = true)
      (hinner : k.Within 0 inner) : Group k (o :: inner) []

/-- Either some token closes one group more than were open, or none does. -/
theorem exists_closing_or_within (e : Nat) (ts : List Token) :
    (∃ inner c behind, ts = inner ++ c :: behind ∧ k.Within e inner ∧
        k.closes inner = e + k.opens inner ∧ c.isBare k.closer = true) ∨ k.Within e ts := by
  induction ts generalizing e with
  | nil => exact .inr (within_nil e)
  | cons t ts ih =>
    by_cases ho : t.isBare k.opener = true
    · have hc : t.isBare k.closer = false := isBare_closer_of_opener ho
      rcases ih (e + 1) with ⟨inner, c, behind, rfl, hin, hcount, hclose⟩ | hin
      · refine .inl ⟨t :: inner, c, behind, rfl, ?_, ?_, hclose⟩
        · rwa [within_cons_iff, if_pos ho]
        · rw [closes_cons, opens_cons, if_pos ho, hc, hcount]
          simp only [Bool.false_eq_true, ↓reduceIte]
          omega
      · exact .inr (by rwa [within_cons_iff, if_pos ho])
    by_cases hc : t.isBare k.closer = true
    · by_cases hzero : e = 0
      · exact .inl ⟨[], t, ts, rfl, within_nil e, by simp [hzero], hc⟩
      rcases ih (e - 1) with ⟨inner, c, behind, rfl, hin, hcount, hclose⟩ | hin
      · refine .inl ⟨t :: inner, c, behind, rfl, ?_, ?_, hclose⟩
        · rw [within_cons_iff, if_neg ho, if_pos hc]
          exact ⟨by omega, hin⟩
        · rw [closes_cons, opens_cons, if_neg ho, if_pos hc, hcount]
          omega
      · refine .inr ?_
        rw [within_cons_iff, if_neg ho, if_pos hc]
        exact ⟨by omega, hin⟩
    · rcases ih e with ⟨inner, c, behind, rfl, hin, hcount, hclose⟩ | hin
      · refine .inl ⟨t :: inner, c, behind, rfl, ?_, ?_, hclose⟩
        · rwa [within_cons_iff, if_neg ho, if_neg hc]
        · rwa [closes_cons, opens_cons, if_neg ho, if_neg hc]
      · exact .inr (by rwa [within_cons_iff, if_neg ho, if_neg hc])

/-- Every opening token starts a group. -/
theorem exists_group {o : Token} (ho : o.isBare k.opener = true) (ts : List Token) :
    ∃ group behind, o :: ts = group ++ behind ∧ k.Group group behind := by
  rcases exists_closing_or_within (k := k) 0 ts with ⟨inner, c, behind, rfl, hin, hcount, hc⟩ | hin
  · exact ⟨o :: (inner ++ [c]), behind, by simp, .closed ho ⟨hin, by omega⟩ hc behind⟩
  · exact ⟨o :: ts, [], by simp, .unclosed ho hin⟩

/-! ## The length of a group -/

/-- Tokens in which a group stays open are passed over. -/
theorem groupLength_within {e d : Nat} {ts : List Token} (h : k.Within e ts) (hd : e < d)
    (rest : List Token) : groupLength k.opener k.closer d (ts ++ rest) =
      ts.length + groupLength k.opener k.closer (d + k.opens ts - k.closes ts) rest := by
  induction ts generalizing e d with
  | nil => simp
  | cons t ts ih =>
    rw [within_cons_iff] at h
    rw [List.cons_append, groupLength, opens_cons, closes_cons, List.length_cons]
    by_cases ho : t.isBare k.opener = true
    · rw [if_pos ho] at h
      have hc : t.isBare k.closer = false := isBare_closer_of_opener ho
      rw [if_pos ho, if_pos ho, hc, ih h (by omega)]
      have hsame : d + 1 + k.opens ts - k.closes ts = d + (k.opens ts + 1) - k.closes ts := by omega
      simp only [Bool.false_eq_true, ↓reduceIte, Nat.add_zero, hsame]
      omega
    rw [if_neg ho] at h
    by_cases hc : t.isBare k.closer = true
    · rw [if_pos hc] at h
      rw [if_neg ho, if_neg ho, if_pos hc, if_pos hc, if_neg (by omega), ih h.2 (by omega)]
      have hsame : d - 1 + k.opens ts - k.closes ts = d + (k.opens ts + 0) - (k.closes ts + 1) := by
        omega
      rw [hsame]
      omega
    · rw [if_neg hc] at h
      rw [if_neg ho, if_neg ho, if_neg hc, if_neg hc, ih h hd]
      simp only [Nat.add_zero]
      omega

/-- The fusion passes find the end of a group. -/
theorem groupLength_of_group {group behind : List Token} (h : k.Group group behind) :
    groupLength k.opener k.closer 0 (group ++ behind) = group.length := by
  cases h with
  | @closed o c inner ho hinner hc =>
    have hdepth : 0 + 1 + k.opens inner - k.closes inner = 1 := by rw [hinner.2]; omega
    have hclose : c.isBare k.opener = false := isBare_opener_of_closer hc
    rw [List.cons_append, List.append_assoc, groupLength, if_pos ho,
      groupLength_within hinner.1 (by omega), hdepth, List.singleton_append, groupLength, hclose, hc]
    simp
  | @unclosed o inner ho hinner =>
    rw [List.cons_append, groupLength, if_pos ho, groupLength_within hinner (by omega), groupLength]
    simp

end Bracket

end CrossShell
