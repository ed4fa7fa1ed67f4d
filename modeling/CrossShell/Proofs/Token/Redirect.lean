import CrossShell.Invocation
import CrossShell.Proofs.Token.Plain

/-!
# Redirections and their tokens

A redirection is an optional descriptor, an operator, an optional `&`, and its target, directly
behind or after a gap. How many tokens it is depends on how it is written.

* `Redirect`: the redirections of a shell, with `Redirect.text`.
* `Redirect.tokenize_text_append`: how one is read, with more behind it.
* `Redirect.fused_text`: the tokens left after fusion. A target that has no descriptor or `&` to
  touch stays a token of its own.
* `Redirect.regular`: the redirections whose tokens have the shape of a redirection.
-/

namespace CrossShell

/-! ## Redirections -/

/-- The operators of a redirection. -/
inductive RedirectOperator where
  /-- `>` -/
  | write
  /-- `>>` -/
  | append
  /-- `<` -/
  | read
  deriving DecidableEq, Repr

namespace RedirectOperator

/-- How the operator is written. -/
def text : RedirectOperator → Text
  | write => ['>']
  | append => ['>', '>']
  | read => ['<']

/-- The character it starts with. -/
def char : RedirectOperator → Char
  | write => '>'
  | append => '>'
  | read => '<'

theorem exists_text_eq (o : RedirectOperator) : ∃ cs, o.text = o.char :: cs := by
  cases o <;> exact ⟨_, rfl⟩

theorem char_cases (o : RedirectOperator) : o.char = '<' ∨ o.char = '>' := by
  cases o <;> simp [char]

theorem isRedirectOperator_text (o : RedirectOperator) (n : Nat) :
    (bare o.text n).isRedirectOperator = true := by
  cases o <;> rfl

/-- An operator is one token unless another angle stands behind it. -/
theorem lexes_text (o : RedirectOperator) {r : Text} (hr : ∀ c ∈ r.head?, c ≠ '<' ∧ c ≠ '>') :
    Lexes o.text r := by
  have hangle : ∀ c, c = '<' ∨ c = '>' → Lexes [c] r := by
    intro c hc
    refine lexes_of_lexemeLength (by rcases hc with rfl | rfl <;> decide)
      (by rcases hc with rfl | rfl <;> rfl) ?_
    cases r with
    | nil => rcases hc with rfl | rfl <;> rfl
    | cons d r =>
      obtain ⟨hlt, hgt⟩ := hr d rfl
      rcases hc with rfl | rfl <;>
        simp [lexemeLength, Quote.ofChar?, operatorAt?, operators_eq, hlt.symm, hgt.symm]
  cases o with
  | write => exact hangle '>' (.inr rfl)
  | read => exact hangle '<' (.inl rfl)
  | append =>
    refine lexes_of_lexemeLength (by decide) rfl ?_
    simp [lexemeLength, Quote.ofChar?, operatorAt?, operators_eq]

end RedirectOperator

/-- What is redirected, where it is written. -/
inductive Descriptor where
  /-- A descriptor by its number. -/
  | number (digits : Text) (ne : digits ≠ []) (all : ∀ c ∈ digits, c.isDigit = true)
  /-- `&`: both output streams. -/
  | both

namespace Descriptor

/-- How the descriptor is written. -/
def text : Descriptor → Text
  | number digits _ _ => digits
  | both => ['&']

theorem isPlain_of_isDigit {c : Char} (h : c.isDigit = true) : isPlain c = true := by
  have hne : ∀ d, d.isDigit = false → c ≠ d := by
    rintro d hd rfl
    rw [h] at hd
    cases hd
  rw [isPlain_iff, Bool.eq_false_iff, Bool.eq_false_iff, ne_eq, ne_eq, isGap_iff,
    isOperatorStart_iff]
  simp only [not_or]
  refine ⟨⟨?_, ?_, ?_, ?_, ?_⟩, ⟨?_, ?_, ?_, ?_, ?_, ?_, ?_, ?_, ?_⟩, ?_, ?_, ?_, ?_⟩ <;>
    exact hne _ (by decide)

theorem isDescriptor_text (d : Descriptor) (n : Nat) : (bare d.text n).isDescriptor = true := by
  cases d with
  | both => rfl
  | number digits ne all =>
    have hempty : digits.isEmpty = false := by simpa using ne
    have hall : digits.all Char.isDigit = true := List.all_eq_true.mpr all
    have hvalue : (bare (number digits ne all).text n).value = digits := rfl
    rw [Token.isDescriptor, hvalue, hempty, hall]
    simp [bare]

/-- In front of an operator, a descriptor is one token. -/
theorem lexes_text (d : Descriptor) (o : RedirectOperator) (r : Text) :
    Lexes d.text (o.text ++ r) := by
  cases d with
  | both => exact lexes_ampersand (by cases o <;> simp [RedirectOperator.text])
  | number digits ne all =>
    refine lexes_plain ne (fun c hc => isPlain_of_isDigit (all c hc)) ?_
    intro c hc
    cases o <;> obtain rfl := Option.some.inj hc <;> decide

end Descriptor

/-- A redirection with its target, a plain word. -/
structure Redirect where
  /-- What is redirected, if it is written. -/
  descriptor : Option Descriptor
  /-- The operator. -/
  operator : RedirectOperator
  /-- Whether an `&` stands behind the operator. -/
  duplicates : Bool
  /-- What stands before the target. -/
  gap : Text
  /-- The target. -/
  target : Text
  isGap_of_mem_gap : ∀ c ∈ gap, isGap c = true
  target_ne_nil : target ≠ []
  isPlain_of_mem_target : ∀ c ∈ target, isPlain c = true

namespace Redirect

variable (r : Redirect)

/-- The descriptor as it is written. -/
def front : Text := (r.descriptor.map Descriptor.text).getD []

/-- The `&` behind the operator. -/
def mark : Text := if r.duplicates then ['&'] else []

/-- All but the target. -/
def head : Text := r.front ++ (r.operator.text ++ r.mark)

/-- The redirection as it is written. -/
def text : Text := r.head ++ (r.gap ++ r.target)

/-- The token of the target. -/
def targetToken : Token := bare r.target (Text.size r.head + Text.size r.gap)

/-- The tokens of the redirection, as they are read. -/
def tokens : List Token :=
  (r.descriptor.map fun d => bare d.text 0).toList ++
    bare r.operator.text (Text.size r.front) ::
      ((if r.duplicates then [bare ['&'] (Text.size r.front + Text.size r.operator.text)]
        else []) ++ [r.targetToken])

/-- Behind the operator and the `&` stands a gap or a plain word. -/
theorem ne_of_head?_gap (rest : Text) :
    ∀ c ∈ (r.gap ++ (r.target ++ rest)).head?, c ≠ '<' ∧ c ≠ '>' ∧ c ≠ '&' := by
  have hgap : ∀ c, isGap c = true → c ≠ '<' ∧ c ≠ '>' ∧ c ≠ '&' := by
    intro c hc
    refine ⟨?_, ?_, ?_⟩ <;> rintro rfl <;> revert hc <;> decide
  have hplain : ∀ c, isPlain c = true → c ≠ '<' ∧ c ≠ '>' ∧ c ≠ '&' := by
    intro c hc
    refine ⟨?_, ?_, ?_⟩ <;> rintro rfl <;> revert hc <;> decide
  intro c hc
  cases hg : r.gap with
  | cons d gap =>
    rw [hg] at hc
    obtain rfl : d = c := Option.some.inj hc
    exact hgap d (r.isGap_of_mem_gap d (by rw [hg]; exact List.mem_cons_self))
  | nil =>
    cases ht : r.target with
    | nil => exact absurd ht r.target_ne_nil
    | cons d target =>
      rw [hg, ht] at hc
      obtain rfl : d = c := Option.some.inj hc
      exact hplain d (r.isPlain_of_mem_target d (by rw [ht]; exact List.mem_cons_self))

/-- How a redirection is read, with something behind it that ends its target. -/
theorem tokenize_text_append {rest : Text} (hr : StartsApart rest) :
    tokenize (r.text ++ rest) = r.tokens ++ tokenizeFrom (Text.size r.text) 0 rest := by
  have htarget : ∀ pos, tokenizeFrom pos 0 (r.gap ++ (r.target ++ rest)) =
      bare r.target (pos + Text.size r.gap) ::
        tokenizeFrom (pos + Text.size r.gap + Text.size r.target) 0 rest := by
    intro pos
    rw [tokenizeFrom_gap r.isGap_of_mem_gap,
      lexes_plain r.target_ne_nil r.isPlain_of_mem_target hr]
  have hmark : ∀ pos, tokenizeFrom pos 0 (r.mark ++ (r.gap ++ (r.target ++ rest))) =
      (if r.duplicates then [bare ['&'] pos] else []) ++
        tokenizeFrom (pos + Text.size r.mark) 0 (r.gap ++ (r.target ++ rest)) := by
    intro pos
    unfold mark
    cases r.duplicates with
    | false => simp
    | true =>
      refine lexes_ampersand ?_ pos
      intro hhead
      exact (r.ne_of_head?_gap rest _ hhead).2.2 rfl
  have hoperator : Lexes r.operator.text (r.mark ++ (r.gap ++ (r.target ++ rest))) := by
    refine r.operator.lexes_text fun c hc => ?_
    unfold mark at hc
    cases hd : r.duplicates with
    | false =>
      rw [hd] at hc
      obtain ⟨hlt, hgt, -⟩ := r.ne_of_head?_gap rest c hc
      exact ⟨hlt, hgt⟩
    | true =>
      rw [hd] at hc
      obtain rfl : '&' = c := Option.some.inj hc
      decide
  have hfront : tokenizeFrom 0 0 (r.front ++ (r.operator.text ++ (r.mark ++ (r.gap ++
      (r.target ++ rest))))) = (r.descriptor.map fun d => bare d.text 0).toList ++
        tokenizeFrom (Text.size r.front) 0 (r.operator.text ++ (r.mark ++ (r.gap ++
          (r.target ++ rest)))) := by
    unfold front
    cases r.descriptor with
    | none => rfl
    | some d =>
      have hd := d.lexes_text r.operator (r.mark ++ (r.gap ++ (r.target ++ rest))) 0
      rw [Nat.zero_add] at hd
      exact hd
  have hassoc : r.text ++ rest = r.front ++ (r.operator.text ++ (r.mark ++ (r.gap ++
      (r.target ++ rest)))) := by
    simp [text, head]
  rw [tokenize, hassoc, hfront, hoperator, hmark, htarget]
  simp [tokens, targetToken, text, head, Nat.add_assoc]

theorem tokenize_text : tokenize r.text = r.tokens := by
  have hnil : StartsApart [] := fun c hc => by cases hc
  simpa [tokenizeFrom] using r.tokenize_text_append hnil

/-- A redirection is complete before everything that ends its target. -/
theorem completeBefore_text {g : Char} (hg : (isGap g || isOperatorStart g) = true) :
    CompleteBefore g r.text := by
  have hapart : StartsApart [g, 'x'] := by
    intro c hc
    obtain rfl : g = c := Option.some.inj hc
    exact hg
  rw [CompleteBefore, r.tokenize_text_append hapart, r.tokenize_text]

/-! ## Fusing a redirection -/

theorem single_of_mem_tokens : ∀ t ∈ r.tokens, t.Single := by
  have hmarks : ∀ v ∈ [['>'], ['>', '>'], ['<'], ['&']], ∀ o ∈ [['('], ['{'], ['<', '<']],
      (v == o) = false := by decide
  have hdescriptor : ∀ d : Descriptor, (bare d.text 0).Single := by
    intro d
    cases d with
    | both => exact hmarks _ (by simp [Descriptor.text, bare])
    | number digits ne all =>
      exact single_plain (fun c hc => Descriptor.isPlain_of_isDigit (all c hc)) ne 0
  intro t ht
  rw [tokens, List.mem_append, List.mem_cons, List.mem_append] at ht
  rcases ht with ht | rfl | ht | ht
  · obtain ⟨d, -, rfl⟩ := by simpa using ht
    exact hdescriptor d
  · exact hmarks _ (by cases r.operator <;> simp [RedirectOperator.text, bare])
  · split at ht
    · rw [List.mem_singleton.mp ht]
      exact hmarks _ (by simp [bare])
    · cases ht
  · rw [List.mem_singleton.mp ht]
    exact single_plain r.isPlain_of_mem_target r.target_ne_nil _

theorem closed_text : Closed r.text :=
  closed_of_single (r.completeBefore_text (by decide)) <| by
    rw [tokenize_text]
    exact r.single_of_mem_tokens

/-- Whether all of the redirection is one token. -/
def joined : Bool := r.gap.isEmpty && (r.descriptor.isSome || r.duplicates)

theorem merge_eq {v post : Text} {first : Token} {more : List Token} (hstart : first.start = 0)
    (hstop : (more.getLast?.getD first).stop = Text.size v) :
    first.merge (v ++ post) more = bare v 0 := by
  have hslice : Text.slice 0 (Text.size v) (v ++ post) = v := by
    have := Text.slice_append [] v post
    simpa using this
  rw [Token.merge, hstart, hstop, hslice, bare, Nat.zero_add]

/-- The target touches what is before it if there is no gap. -/
theorem touches_targetToken (v : Text) {n : Nat} (h : n + Text.size v = Text.size r.head) :
    (bare v n).touches r.targetToken = r.gap.isEmpty := by
  cases hg : r.gap with
  | nil => simp [Token.touches, bare, targetToken, h, hg]
  | cons c gap =>
    have hpos := c.utf8Size_pos
    simp [Token.touches, bare, targetToken, h, hg]
    omega

theorem isOperator_targetToken : r.targetToken.isOperator = false := by
  have hstart : ∀ o ∈ operators, o.head?.any isOperatorStart = true := by decide +kernel
  have hcontains : operators.contains r.target = false := by
    rw [← Bool.not_eq_true, List.contains_iff_mem]
    intro hmem
    exact plain_ne r.isPlain_of_mem_target r.target_ne_nil (hstart _ hmem) rfl
  exact hcontains

theorem isBare_targetToken : r.targetToken.isBare "&" = false :=
  isBare_plain r.isPlain_of_mem_target r.target_ne_nil (by decide) _

theorem startsTarget_targetToken (v : Text) {n : Nat} (h : n + Text.size v = Text.size r.head) :
    Fusion.startsTarget (bare v n) [r.targetToken] = r.gap.isEmpty := by
  rw [Fusion.startsTarget, r.touches_targetToken v h, isOperator_targetToken, isBare_targetToken]
  simp

/-- What the operator reaches: the `&`, and the target if it touches. -/
theorem targetExtent_operator {n : Nat} (h : n = Text.size r.front) :
    Fusion.targetExtent (bare r.operator.text n)
      ((if r.duplicates then [bare ['&'] (n + Text.size r.operator.text)] else []) ++
        [r.targetToken]) = (if r.duplicates then 1 else 0) + (if r.gap.isEmpty then 1 else 0) := by
  cases hd : r.duplicates with
  | true =>
    have hhead : n + Text.size r.operator.text + Text.size ['&'] = Text.size r.head := by
      simp [head, mark, hd, h, Nat.add_assoc]
    have hduplication : Fusion.startsDuplication (bare r.operator.text n)
        [bare ['&'] (n + Text.size r.operator.text), r.targetToken] = true := by
      simp [Fusion.startsDuplication, Token.touches, bare, Token.isBare]
    simp only [if_true, List.cons_append, List.nil_append, Fusion.targetExtent, hduplication,
      r.startsTarget_targetToken _ hhead]
    split <;> rfl
  | false =>
    have hhead : n + Text.size r.operator.text = Text.size r.head := by
      simp [head, mark, hd, h]
    have hduplication :
        Fusion.startsDuplication (bare r.operator.text n) [r.targetToken] = false := by
      rw [Fusion.startsDuplication, isBare_targetToken, Bool.false_and]
    simp only [Bool.false_eq_true, if_false, List.nil_append, Fusion.targetExtent, hduplication,
      r.startsTarget_targetToken _ hhead]
    split <;> rfl

theorem stop_targetToken : r.targetToken.stop = Text.size r.text := by
  simp [targetToken, bare, text, Nat.add_assoc]

/-- A pass that glues all of the redirection, or all but its target. -/
theorem apply_of_extent (first : Token) (more : List Token) (hstart : first.start = 0)
    (htokens : r.tokens = first :: (more ++ [r.targetToken])) (hne : more ≠ [])
    (hstop : (more.getLast?.getD first).stop = Text.size r.head)
    (hextent : Fusion.descriptorRedirectionExtent first (more ++ [r.targetToken]) =
      more.length + (if r.gap.isEmpty then 1 else 0)) :
    Fusion.descriptorRedirection.apply r.text r.tokens =
      if r.gap.isEmpty then [bare r.text 0] else [bare r.head 0, r.targetToken] := by
  rw [Fusion.apply, htokens]
  cases hg : r.gap.isEmpty with
  | true =>
    have hall : Fusion.descriptorRedirection.extent first (more ++ [r.targetToken] ++ []) =
        (more ++ [r.targetToken]).length := by
      simpa [hg, Fusion.extent] using hextent
    have hmerge : first.merge (r.text ++ []) (more ++ [r.targetToken]) = bare r.text 0 :=
      merge_eq hstart (by simp [stop_targetToken])
    rw [List.append_nil] at hmerge
    rw [← List.append_nil (more ++ [r.targetToken]), coalesce_cons hall, hmerge]
    simp [coalesce]
  | false =>
    have hsome : Fusion.descriptorRedirection.extent first (more ++ [r.targetToken]) =
        more.length := by
      simpa [hg, Fusion.extent] using hextent
    have hempty : more.isEmpty = false := by simpa using hne
    rw [coalesce_cons hsome, hempty, text, merge_eq hstart hstop]
    simp [coalesce]

/-- The last pass joins the tokens of the redirection as far as they touch, from a descriptor or up
to a `&`. -/
theorem apply_tokens : Fusion.descriptorRedirection.apply r.text r.tokens =
    if r.joined then [bare r.text 0] else [bare r.head 0, r.targetToken] := by
  cases hd : r.descriptor with
  | some d =>
    have hfront : r.front = d.text := by simp [front, hd]
    have hjoined : r.joined = r.gap.isEmpty := by simp [joined, hd]
    have htouch : (bare d.text 0).touches (bare r.operator.text (Text.size r.front)) = true := by
      simp [Token.touches, bare, hfront]
    rw [hjoined]
    refine r.apply_of_extent (bare d.text 0) (bare r.operator.text (Text.size r.front) ::
      (if r.duplicates then [bare ['&'] (Text.size r.front + Text.size r.operator.text)] else []))
      rfl (by simp [tokens, hd]) (by simp) ?_ ?_
    · cases hdup : r.duplicates <;> simp [bare, head, mark, hdup, Nat.add_assoc]
    · rw [List.cons_append, Fusion.descriptorRedirectionExtent, d.isDescriptor_text,
        r.operator.isRedirectOperator_text, htouch, r.targetExtent_operator rfl]
      cases r.duplicates <;> simp <;> omega
  | none =>
    have hfront : r.front = [] := by simp [front, hd]
    have hnot : (bare r.operator.text 0).isDescriptor = false := by cases r.operator <;> rfl
    have hzero : Text.size r.front = 0 := by rw [hfront]; rfl
    cases hdup : r.duplicates with
    | true =>
      have hjoined : r.joined = r.gap.isEmpty := by simp [joined, hdup]
      have hextent := r.targetExtent_operator hzero.symm
      rw [hdup, if_pos rfl, if_pos rfl] at hextent
      rw [hjoined]
      refine r.apply_of_extent (bare r.operator.text 0)
        [bare ['&'] (0 + Text.size r.operator.text)] rfl
        (by simp [tokens, hd, hdup, hzero]) (by simp) ?_ ?_
      · simp [bare, head, mark, hdup, hfront]
      · have htouch : (bare r.operator.text 0).touches
            (bare ['&'] (0 + Text.size r.operator.text)) = true := by
          simp [Token.touches, bare]
        have hand : (bare ['&'] (0 + Text.size r.operator.text)).isBare "&" = true := rfl
        rw [List.cons_append, Fusion.descriptorRedirectionExtent, hnot, hand, htouch,
          r.operator.isRedirectOperator_text]
        simpa using hextent
    | false =>
      have hjoined : r.joined = false := by simp [joined, hd, hdup]
      have hhead : r.head = r.operator.text := by simp [head, mark, hfront, hdup]
      have hextent : Fusion.descriptorRedirection.extent (bare r.operator.text 0)
          ([] ++ [r.targetToken]) = ([] : List Token).length := by
        rw [List.nil_append, Fusion.extent, Fusion.descriptorRedirectionExtent, hnot,
          isBare_targetToken]
        simp
      have htokens : r.tokens = bare r.operator.text 0 :: ([] ++ [r.targetToken]) := by
        simp [tokens, hd, hdup, hzero]
      rw [hjoined, Fusion.apply, htokens, coalesce_cons hextent, hhead]
      simp [coalesce]

/-- The tokens of a redirection, read and fused. -/
theorem fused_text : fused r.text =
    if r.joined then [bare r.text 0] else [bare r.head 0, r.targetToken] := by
  rw [fused, tokenize_text, fuse_eq, fuseGroups_eq_self r.single_of_mem_tokens, apply_tokens]

/-! ## The shape of the tokens -/

/-- Whether the redirection is one that the shape of a redirection covers: an `&` takes a number or
`-`, directly behind it. -/
def regular : Bool :=
  !r.duplicates ||
    r.gap.isEmpty && (r.target == ['-'] || r.target.all Text.isDecimalDigit)

theorem isDecimalDigit_char (o : RedirectOperator) : Text.isDecimalDigit o.char = false := by
  cases o <;> decide +kernel

/-- Digits in front of an angle do not matter for the shape. -/
theorem isRedirection_digits {digits : Text}
    (hall : ∀ c ∈ digits, Text.isDecimalDigit c = true) (o : RedirectOperator) (rest : Text) :
    isRedirection (digits ++ o.char :: rest) = isPlainRedirection (o.char :: rest) := by
  have hhead : ∀ t, digits ++ o.char :: rest ≠ '&' :: t := by
    intro t ht
    cases digits with
    | nil =>
      have hchar : o.char ≠ '&' := by cases o <;> decide
      exact hchar (List.cons.inj ht).1
    | cons c digits =>
      have hc := hall c List.mem_cons_self
      rw [(List.cons.inj ht).1] at hc
      exact absurd hc (by decide +kernel)
  have hskip : (digits ++ o.char :: rest).dropWhile Text.isDecimalDigit = o.char :: rest := by
    rw [List.dropWhile_append_of_pos hall, List.dropWhile_cons, isDecimalDigit_char]
    rfl
  unfold isRedirection
  split
  · rename_i t ht
    exact absurd ht (hhead t)
  · rw [hskip]

/-- The descriptor does not matter for the shape. -/
theorem isRedirection_front (rest : Text) :
    isRedirection (r.front ++ (r.operator.text ++ rest)) =
      isPlainRedirection (r.operator.text ++ rest) := by
  obtain ⟨cs, hcs⟩ := r.operator.exists_text_eq
  rw [hcs, List.cons_append]
  unfold front
  cases r.descriptor with
  | none => exact isRedirection_digits (by simp) r.operator (cs ++ rest)
  | some d =>
    cases d with
    | both => rfl
    | number digits ne all =>
      exact isRedirection_digits (fun c hc => Text.isDecimalDigit_of_isDigit (all c hc)) r.operator
        (cs ++ rest)

theorem isPlainRedirection_operator (o : RedirectOperator) {rest : Text}
    (hr : ∀ c ∈ rest.head?, c ≠ '<' ∧ c ≠ '>') :
    isPlainRedirection (o.text ++ rest) = (isDuplicate rest || isRedirectTarget rest) := by
  cases rest with
  | nil => cases o <;> rfl
  | cons c rest =>
    obtain ⟨hlt, hgt⟩ := hr c rfl
    cases o with
    | append => rfl
    | write => simp [RedirectOperator.text, isPlainRedirection, hgt]
    | read => simp [RedirectOperator.text, isPlainRedirection, hlt]

/-- Without its target, a redirection has the shape of one. -/
theorem isRedirection_head : isRedirection r.head = true := by
  rw [head, isRedirection_front, isPlainRedirection_operator]
  · unfold mark
    cases r.duplicates <;> rfl
  · unfold mark
    intro c hc
    cases hd : r.duplicates <;> rw [hd] at hc
    · cases hc
    · obtain rfl : '&' = c := Option.some.inj hc
      decide

/-- With its target directly behind it, a redirection keeps its shape if it is regular. -/
theorem isRedirection_text (hg : r.gap = []) : isRedirection r.text = r.regular := by
  have htext : r.text = r.front ++ (r.operator.text ++ (r.mark ++ r.target)) := by
    simp [text, head, hg]
  rw [htext, isRedirection_front, isPlainRedirection_operator]
  · unfold mark regular
    cases r.duplicates with
    | true => simp [isDuplicate, isRedirectTarget, hg]
    | false => simp [isRedirectTarget_plain r.isPlain_of_mem_target r.target_ne_nil]
  · intro c hc
    have hhead := r.ne_of_head?_gap [] c
    rw [hg, List.nil_append, List.append_nil] at hhead
    unfold mark at hc
    cases hd : r.duplicates with
    | true =>
      rw [hd] at hc
      obtain rfl : '&' = c := Option.some.inj hc
      decide
    | false =>
      rw [hd] at hc
      obtain ⟨hlt, hgt, -⟩ := hhead hc
      exact ⟨hlt, hgt⟩

/-- The target is the next token exactly if the operator has no `&`. -/
theorem needsTarget_head : Invocation.needsTarget r.head = !r.duplicates := by
  unfold Invocation.needsTarget head mark
  cases r.duplicates with
  | true => simp
  | false => cases r.operator <;> simp [RedirectOperator.text]

theorem needsTarget_text : Invocation.needsTarget r.text = false := by
  have hlast : r.text.getLast? = r.target.getLast? := by
    rw [text, ← List.append_assoc, List.getLast?_append,
      List.getLast?_eq_some_getLast r.target_ne_nil]
    rfl
  have hmem : ∀ c, r.target.getLast? = some c → isPlain c = true :=
    fun c hc => r.isPlain_of_mem_target c (List.mem_of_getLast? hc)
  rw [Invocation.needsTarget, hlast, Bool.or_eq_false_iff, beq_eq_false_iff_ne, beq_eq_false_iff_ne]
  refine ⟨fun h => ?_, fun h => ?_⟩
  · exact absurd (hmem _ h) (by decide)
  · exact absurd (hmem _ h) (by decide)

theorem isConnector_of_mem {v : Text} {n : Nat} (h : r.operator.char ∈ v) :
    (bare v n).isConnector = false := by
  have hangle : ∀ o ∈ ["&&".toList, "||", "|", ";", "|&"], '<' ∉ o ∧ '>' ∉ o := by decide
  have hcontains : ["&&".toList, "||", "|", ";", "|&"].contains v = false := by
    rw [← Bool.not_eq_true, List.contains_iff_mem]
    intro hmem
    obtain ⟨hlt, hgt⟩ := hangle v hmem
    rcases r.operator.char_cases with hc | hc <;> rw [hc] at h
    · exact hlt h
    · exact hgt h
  exact hcontains

theorem char_mem_head : r.operator.char ∈ r.head := by
  obtain ⟨cs, hcs⟩ := r.operator.exists_text_eq
  rw [head, hcs]
  simp

theorem isConnector_targetToken : r.targetToken.isConnector = false := by
  have hstart : ∀ o ∈ ["&&".toList, "||", "|", ";", "|&"], o.head?.any isOperatorStart = true := by
    decide
  have hcontains : ["&&".toList, "||", "|", ";", "|&"].contains r.target = false := by
    rw [← Bool.not_eq_true, List.contains_iff_mem]
    intro hmem
    exact plain_ne r.isPlain_of_mem_target r.target_ne_nil (hstart _ hmem) rfl
  exact hcontains

theorem isConnector_of_mem_fused : ∀ t ∈ fused r.text, t.isConnector = false := by
  intro t ht
  rw [fused_text] at ht
  split at ht
  · rw [List.mem_singleton.mp ht]
    exact r.isConnector_of_mem (List.mem_append_left _ r.char_mem_head)
  · simp only [List.mem_cons, List.not_mem_nil, or_false] at ht
    rcases ht with rfl | rfl
    · exact r.isConnector_of_mem r.char_mem_head
    · exact r.isConnector_targetToken

end Redirect

end CrossShell
