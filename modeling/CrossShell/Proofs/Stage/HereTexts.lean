import CrossShell.Proofs.Stage.PlacedRedirects
import CrossShell.Proofs.Token.HereDocuments

/-!
# Stages with here-documents and here-strings

A stage in which a here-document is seen stays as it is, whatever it is converted with. Other
here-documents do not keep a stage from being converted, and here-strings never do: `<<<` is read as
the redirection `<<` with the target `<`, and the text behind it as a word like any other.

* `StageConverter.Passes`: the stage stays as it is whether or not it has here-documents.
* `Invocation.words_skip_hereString`: the words are those of the stage without `<<<`.
* `here_documents_opaque_iff`: the stages that stay as they are.
-/

namespace CrossShell

/-! ## Here-documents -/

namespace StageConverter

/-- The stage stays as it is whether or not it has here-documents: it is not to be converted, or its
command comes out as the stage itself, if it has a counterpart at all. -/
def Passes (r : StageConverter) (nested : Nested) (stage : Text) : Prop :=
  r.target.needsConversion = false ∨ isGrouped stage = true ∨
    ∀ inv text, Invocation.ofTagged? stage (tagStage stage) = some inv →
      r.convertInvocation? nested inv = some text → text = stage

theorem exists_isHeredoc_tagStage (stage : Text) :
    (∃ t ∈ tagStage stage, t.token.isHeredoc = true) ↔
      ∃ d : HereDocument (expanded stage), d.Seen := by
  have hstage : (tagStage stage).map TaggedToken.token = fused stage :=
    map_token_tagRolesFrom true _
  rw [← exists_isHeredoc_iff, ← hstage]
  simp

theorem convertStageAt_eq_self_iff (r : StageConverter) (depth : Nat) (stage : Text) :
    r.convertStageAt depth stage = stage ↔
      (∃ d : HereDocument (expanded stage), d.Seen) ∨ r.Passes (r.nestedAt depth) stage := by
  rw [convertStageAt_eq, ← exists_isHeredoc_tagStage]
  constructor
  · intro hsame
    by_contra hnot
    simp only [Passes, not_or, not_exists, not_and, not_forall, Bool.not_eq_true,
      Bool.not_eq_false] at hnot
    obtain ⟨hheredoc, hneeds, hgroup, inv, text, hinv, htext, hne⟩ := hnot
    have hconvert : r.convertStage? (r.nestedAt depth) stage = some text :=
      convertStage?_eq_some_iff.mpr ⟨hneeds, hgroup, hheredoc, inv, hinv, htext⟩
    rw [hconvert] at hsame
    exact hne hsame
  · intro hkept
    cases hconvert : r.convertStage? (r.nestedAt depth) stage with
    | none => rfl
    | some text =>
      obtain ⟨hneeds, hgroup, hheredoc, inv, hinv, htext⟩ := convertStage?_eq_some_iff.mp hconvert
      rcases hkept with ⟨t, ht, hdoc⟩ | hneeds' | hgroup' | hsame
      · rw [hheredoc t ht] at hdoc
        cases hdoc
      · rw [hneeds] at hneeds'
        cases hneeds'
      · rw [hgroup] at hgroup'
        cases hgroup'
      · exact hsame inv text hinv htext

end StageConverter

/-! ## Here-strings -/

/-- The operator `<<<` of a here-string among tokens: `<<` and a `<` that it touches. -/
structure HereString (ts : List TaggedToken) where
  /-- The tokens before it. -/
  front : List TaggedToken
  /-- The token `<<`. -/
  operator : TaggedToken
  /-- The token `<`. -/
  angle : TaggedToken
  /-- Its text and all tokens behind that. -/
  behind : List TaggedToken
  split : ts = front ++ operator :: angle :: behind
  isBare_operator : operator.token.isBare "<<" = true
  isBare_angle : angle.token.isBare "<" = true
  touches : operator.token.touches angle.token = true

namespace HereString

variable {ts : List TaggedToken} (h : HereString ts)

/-- The command word stands before it. -/
def BehindCommand : Prop := ∃ c ∈ h.front, c.role = .command

/-- It is the target of a redirection before it. -/
def IsTarget : Prop :=
  Invocation.leavesPending false (h.front.eraseP (·.role == .command)) = true

/-- The tokens without it. -/
def without : List TaggedToken := h.front ++ h.behind

end HereString

namespace Invocation

theorem leavesPending_append (pending : Bool) (ts us : List TaggedToken) :
    leavesPending pending (ts ++ us) = leavesPending (leavesPending pending ts) us := by
  induction ts generalizing pending with
  | nil => rfl
  | cons t ts ih => cases pending <;> exact ih _

/-- The invocation of tokens whose command word is among the first of them. -/
theorem exists_ofTagged?_append {A : List TaggedToken} (hA : ∃ c ∈ A, c.role = .command)
    (stage : Text) : ∃ name words, ∀ X, ∃ inv, ofTagged? stage (A ++ X) = some inv ∧
      inv.name = name ∧ inv.words = words ++ (sortTokens true
        (leavesPending false (A.eraseP (·.role == .command))) X).words := by
  obtain ⟨c, hc, hrole⟩ := hA
  obtain ⟨c, F, B, hF, hcommand, rfl, herase⟩ :=
    List.exists_of_eraseP (p := (·.role == .command)) hc (by rw [hrole]; rfl)
  have hfront : ∀ t ∈ F, (t.role != .command) = true := by
    intro t ht
    simpa using hF t ht
  have hstop : ¬(c.role != .command) = true := by simpa using hcommand
  refine ⟨c.value, (sortTokens true (leavesPending false F) B).words, fun X => ?_⟩
  have htake : (F ++ c :: (B ++ X)).takeWhile (·.role != .command) = F := by
    rw [List.takeWhile_append_of_pos hfront, List.takeWhile_cons_of_neg (by simpa using hstop),
      List.append_nil]
  have hdrop : (F ++ c :: (B ++ X)).dropWhile (·.role != .command) = c :: (B ++ X) := by
    rw [List.dropWhile_append_of_pos hfront, List.dropWhile_cons_of_neg (by simpa using hstop)]
  rw [List.append_assoc, List.cons_append, ofTagged?, htake, hdrop]
  refine ⟨_, rfl, rfl, ?_⟩
  rw [herase, leavesPending_append]
  exact (sortTokens_append _ B X).1

/-- Where no redirection waits for its target, `<<` takes `<` for its own. -/
theorem words_sortTokens_hereString {s t : TaggedToken} (hs : s.token.isBare "<<" = true)
    (ts : List TaggedToken) :
    (sortTokens true false (s :: t :: ts)).words = (sortTokens true false ts).words := by
  obtain ⟨hquote, hvalue⟩ := Token.eq_of_isBare hs
  have hredirect : s.token.isRedirect = true := by
    rw [Token.isRedirect, hquote, hvalue]
    decide
  have hneeds : needsTarget s.value = true := by
    rw [TaggedToken.value, hvalue]
    decide
  rw [sortTokens, hredirect, if_pos rfl, hneeds]
  rfl

/-- The words of a stage with a here-string are those of the stage without `<<<`. -/
theorem words_skip_hereString {ts : List TaggedToken} (h : HereString ts)
    (hcommand : h.BehindCommand) (htarget : ¬h.IsTarget) (stage : Text) :
    ∃ inv inv', ofTagged? stage ts = some inv ∧ ofTagged? stage h.without = some inv' ∧
      inv.name = inv'.name ∧ inv.words = inv'.words := by
  obtain ⟨name, words, hall⟩ := exists_ofTagged?_append hcommand stage
  obtain ⟨inv, hinv, hname, hwords⟩ := hall (h.operator :: h.angle :: h.behind)
  obtain ⟨inv', hinv', hname', hwords'⟩ := hall h.behind
  have hpending : leavesPending false (h.front.eraseP (·.role == .command)) = false :=
    Bool.eq_false_iff.mpr htarget
  refine ⟨inv, inv', (congrArg (ofTagged? stage) h.split).trans hinv, hinv',
    hname.trans hname'.symm, ?_⟩
  rw [hwords, hwords', hpending, words_sortTokens_hereString h.isBare_operator]

end Invocation

/-- **A stage with a here-document stays as it is** exactly if a here-document is seen, unless it
would stay anyway. One that stands in a process substitution is not seen; any other is, unless a
redirection operator or `&` touches it from the left. A here-string does not count: behind the
command word the words are those of the stage without `<<<`, the text of the here-string among
them. -/
theorem here_documents_opaque_iff (r : StageConverter) (depth : Nat) (stage : Text) :
    (r.convertStageAt depth stage = stage ↔
      (∃ d : HereDocument (expanded stage), d.Seen) ∨ r.Passes (r.nestedAt depth) stage) ∧
    (∀ d : HereDocument (expanded stage),
      (d.InSubstitution → ¬d.Seen) ∧ (d.Seen ∨ d.InSubstitution ∨ d.Touched)) ∧
    ∀ h : HereString (tagStage stage), h.BehindCommand → ¬h.IsTarget →
      ∃ inv inv', Invocation.ofTagged? stage (tagStage stage) = some inv ∧
        Invocation.ofTagged? stage h.without = some inv' ∧ inv.name = inv'.name ∧
        inv.words = inv'.words := by
  refine ⟨r.convertStageAt_eq_self_iff depth stage,
    fun d => ⟨HereDocument.not_seen_of_inSubstitution, d.seen_or_missed⟩, ?_⟩
  exact fun h hcommand htarget => Invocation.words_skip_hereString h hcommand htarget stage

/-- A here-document in a process substitution, and one behind it. -/
def nestedStage : Text := "cat <(sort <<A) <<'B C'".toList

/-- The first of the two. -/
def nestedDocument : HereDocument (expanded nestedStage) where
  front := [bare ['c', 'a', 't'] 0, bare ['<'] 4, bare ['('] 5, bare ['s', 'o', 'r', 't'] 6]
  operator := bare ['<', '<'] 11
  behind := [bare ['A'] 13, bare [')'] 14, bare ['<', '<'] 16,
    ⟨['\'', 'B', ' ', 'C', '\''], 18, 23, some .single⟩]
  split := by decide +kernel
  isBare_operator := rfl
  beginsWord_behind := by decide +kernel

/-- The second. -/
def outerDocument : HereDocument (expanded nestedStage) where
  front := [bare ['c', 'a', 't'] 0, bare ['<'] 4, bare ['('] 5, bare ['s', 'o', 'r', 't'] 6,
    bare ['<', '<'] 11, bare ['A'] 13, bare [')'] 14]
  operator := bare ['<', '<'] 16
  behind := [⟨['\'', 'B', ' ', 'C', '\''], 18, 23, some .single⟩]
  split := by decide +kernel
  isBare_operator := rfl
  beginsWord_behind := by decide +kernel

/-- Only the second is seen, and it keeps the stage as it is. With the first alone the stage would
be converted. -/
theorem here_documents_opaque_iff_nestedStage :
    nestedDocument.InSubstitution ∧ ¬nestedDocument.Seen ∧ outerDocument.Seen ∧
      (∀ (r : StageConverter) (depth : Nat), r.convertStageAt depth nestedStage = nestedStage) ∧
      (StageConverter.mk .builtin (.powerShell (some 7))).convertStageAt maxDepth
        "cat <(sort <<A)".toList = "Get-Content <(sort <<A)".toList := by
  have hin : nestedDocument.InSubstitution :=
    ⟨[bare ['c', 'a', 't'] 0], bare ['<'] 4, bare ['('] 5, [bare ['s', 'o', 'r', 't'] 6], rfl,
      by decide +kernel, by decide +kernel⟩
  have hseen : outerDocument.Seen :=
    ⟨bare ['<', '<', '\'', 'B', ' ', 'C', '\''] 16, by decide +kernel, rfl⟩
  refine ⟨hin, ?_, hseen, fun r depth => ?_, by decide +kernel⟩
  · have hparts := (here_documents_opaque_iff ⟨.builtin, .console⟩ 0 nestedStage).2.1
    exact (hparts nestedDocument).1 hin
  · exact (here_documents_opaque_iff r depth nestedStage).1.mpr (.inl ⟨outerDocument, hseen⟩)

/-- A here-string. -/
def hereStringStage : Text := "cat <<< hello".toList

/-- In `cat <<< hello` the text is taken for the name of a file. -/
theorem here_string_read_as_file :
    expanded hereStringStage = [bare ['c', 'a', 't'] 0, bare ['<', '<'] 4, bare ['<'] 6,
        bare ['h', 'e', 'l', 'l', 'o'] 8] ∧
      Invocation.ofTagged? hereStringStage (tagStage hereStringStage) =
        some ⟨"cat", hereStringStage, [⟨bare ['h', 'e', 'l', 'l', 'o'] 8, .argument⟩],
          ["<<", "<"]⟩ ∧
      (StageConverter.mk .builtin (.powerShell (some 7))).convertStageAt maxDepth hereStringStage =
        "Get-Content hello".toList := by
  refine ⟨?_, ?_, ?_⟩ <;> decide +kernel

end CrossShell
