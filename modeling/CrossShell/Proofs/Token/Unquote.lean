import CrossShell.Proofs.Line.Composition
import CrossShell.Proofs.Token.Checked
import CrossShell.Text.Quoted

/-!
# The text of a quoted token

A quoted word stands for the text between its quotes. Between double quotes a backslash takes away
the meaning of a quote or of another backslash, and these two pairs are replaced one kind after the
other. The order does no harm where every quote stands behind a backslash of its own, which is how
the lexer finds the end of a token.

* `Text.InsideDouble`: what may stand between double quotes, by its characters and pairs.
* `Text.unescape`: both pairs in one pass from the left. `Text.replace_replace_eq`: on such a text
  the two replacements are this pass.
* `exists_inside_of_complete`: a quoted token that is closed has such a text between its quotes.
* `Text.unquote?`: unquoting by the bytes of a text, where a slice that cuts a character fails.
* `unquote_exact`: unquoting undoes escaping, is one pass on every closed token, and never cuts a
  character.
-/

namespace CrossShell

namespace Text

/-! ## Pairs of a backslash and a character -/

/-- What may stand between double quotes: a quote stands behind a backslash, and each backslash has
a character behind it that it protects. -/
inductive InsideDouble : Text → Prop
  | nil : InsideDouble []
  | char {c : Char} {t : Text} (hquote : c ≠ '"') (hslash : c ≠ '\\') (h : InsideDouble t) :
      InsideDouble (c :: t)
  | pair (c : Char) {t : Text} (h : InsideDouble t) : InsideDouble ('\\' :: c :: t)

/-- The text with a backslash in front of each backslash and each double quote. -/
def escape (t : Text) : Text := t.flatMap fun c => if c = '\\' ∨ c = '"' then ['\\', c] else [c]

/-- One pass from the left that takes the backslash from `\"` and `\\`. -/
def unescape : Text → Text
  | [] => []
  | '\\' :: '"' :: t => '"' :: unescape t
  | '\\' :: '\\' :: t => '\\' :: unescape t
  | c :: t => c :: unescape t

theorem unescape_cons {c : Char} (h : c ≠ '\\') (t : Text) :
    unescape (c :: t) = c :: unescape t := by
  rw [unescape]
  · rintro _ rfl
    exact absurd rfl h
  · rintro _ rfl
    exact absurd rfl h

theorem unescape_pair {c : Char} (hquote : c ≠ '"') (hslash : c ≠ '\\') (t : Text) :
    unescape ('\\' :: c :: t) = '\\' :: c :: unescape t := by
  rw [unescape, unescape_cons hslash]
  · rintro _ - h
    exact hquote (List.cons.inj h).1
  · rintro _ - h
    exact hslash (List.cons.inj h).1

theorem unescape_append {s : Text} (h : '\\' ∉ s) (t : Text) :
    unescape (s ++ t) = s ++ unescape t := by
  induction s with
  | nil => rfl
  | cons c s ih =>
    rw [List.mem_cons, not_or] at h
    rw [List.cons_append, unescape_cons (Ne.symm h.1), ih h.2, List.cons_append]

theorem mem_of_mem_unescape {c : Char} {t : Text} (h : c ∈ unescape t) : c ∈ t := by
  fun_induction unescape t with
  | case1 => exact h
  | case2 t ih =>
    rcases List.mem_cons.mp h with rfl | h
    · simp
    · simp [ih h]
  | case3 t ih =>
    rcases List.mem_cons.mp h with rfl | h
    · simp
    · simp [ih h]
  | case4 d t _ _ ih =>
    rcases List.mem_cons.mp h with rfl | h
    · simp
    · simp [ih h]

theorem InsideDouble.append {s t : Text} (hquote : '"' ∉ s) (hslash : '\\' ∉ s)
    (h : InsideDouble t) : InsideDouble (s ++ t) := by
  induction s with
  | nil => exact h
  | cons c s ih =>
    rw [List.mem_cons, not_or] at hquote hslash
    exact .char (Ne.symm hquote.1) (Ne.symm hslash.1) (ih hquote.2 hslash.2)

theorem replace_of_not_front {old new t : Text} {c : Char} (h : ¬old <+: c :: t) :
    replace old new (c :: t) = c :: replace old new t := by
  rw [← List.isPrefixOf_iff_prefix, Bool.not_eq_true] at h
  rw [replace, replaceFrom, h]
  rfl

theorem replace_pair (a b : Char) (new t : Text) :
    replace [a, b] new (a :: b :: t) = new ++ replace [a, b] new t := by
  rw [replace, replaceFrom, if_pos (by simp)]
  rfl

theorem not_pair_front {a b c : Char} {t : Text} (h : c ≠ a ∨ t.head? ≠ some b) :
    ¬[a, b] <+: c :: t := by
  intro hfront
  obtain ⟨rest, hrest⟩ := hfront
  obtain ⟨rfl, rfl⟩ := List.cons.inj hrest
  simp at h

/-- Replacing `\"` and then `\\` is one pass over both, if every quote is protected. A backslash
that the first step leaves in front of a quote is never the second one of a pair. -/
theorem replace_replace_eq {t : Text} (h : InsideDouble t) :
    replace ['\\', '\\'] ['\\'] (replace ['\\', '"'] ['"'] t) = unescape t := by
  have hplain {c : Char} (hc : c ≠ '\\') (old : Char) (new t : Text) :
      replace ['\\', old] new (c :: t) = c :: replace ['\\', old] new t :=
    replace_of_not_front (not_pair_front (.inl hc))
  induction h with
  | nil => rfl
  | @char c t _ hslash _ ih => rw [hplain hslash, hplain hslash, ih, unescape_cons hslash]
  | @pair c t ht ih =>
    by_cases hquote : c = '"'
    · subst hquote
      rw [replace_pair, List.singleton_append, hplain (by decide), ih, unescape]
    · have hfirst : replace ['\\', '"'] ['"'] ('\\' :: c :: t) =
          '\\' :: replace ['\\', '"'] ['"'] (c :: t) :=
        replace_of_not_front (not_pair_front (.inr (by simpa using hquote)))
      rw [hfirst]
      by_cases hslash : c = '\\'
      · -- What stands behind a protected backslash is no quote.
        subst hslash
        have hhead : t.head? ≠ some '"' := by
          cases ht with
          | nil => simp
          | char hne _ _ => simpa using hne
          | pair c _ => simp
        rw [replace_of_not_front (not_pair_front (.inr hhead)), replace_pair,
          List.singleton_append, ih, unescape]
      · have hsecond : (c :: replace ['\\', '"'] ['"'] t).head? ≠ some '\\' := by simpa using hslash
        rw [hplain hslash, replace_of_not_front (not_pair_front (.inr hsecond)), hplain hslash,
          ih, unescape_pair hquote hslash]

theorem escape_cons (c : Char) (t : Text) :
    escape (c :: t) = (if c = '\\' ∨ c = '"' then ['\\', c] else [c]) ++ escape t :=
  List.flatMap_cons

theorem insideDouble_escape (t : Text) : InsideDouble (escape t) := by
  induction t with
  | nil => exact .nil
  | cons c t ih =>
    rw [escape_cons]
    split
    · exact .pair c ih
    · rename_i h
      rw [not_or] at h
      exact .char h.2 h.1 ih

theorem unescape_escape (t : Text) : unescape (escape t) = t := by
  induction t with
  | nil => rfl
  | cons c t ih =>
    rw [escape_cons]
    by_cases hslash : c = '\\'
    · subst hslash
      rw [if_pos (.inl rfl), List.cons_append, List.singleton_append, unescape, ih]
    by_cases hquote : c = '"'
    · subst hquote
      rw [if_pos (.inr rfl), List.cons_append, List.singleton_append, unescape, ih]
    · rw [if_neg (by simp [hslash, hquote]), List.singleton_append, unescape_cons hslash, ih]

/-! ## Taking quotes off -/

theorem unquote_single (inside : Text) : unquote ('\'' :: (inside ++ ['\''])) = inside := by
  have hinner : inner ('\'' :: (inside ++ ['\''])) = inside := by simp [inner]
  rw [unquote, if_pos (enclosedBy_iff.mpr (by rw [hinner])), hinner]

theorem unquote_double (inside : Text) : unquote ('"' :: (inside ++ ['"'])) =
    replace ['\\', '\\'] ['\\'] (replace ['\\', '"'] ['"'] inside) := by
  have hinner : inner ('"' :: (inside ++ ['"'])) = inside := by simp [inner]
  have hsingle : enclosedBy '\'' ('"' :: (inside ++ ['"'])) = false := by simp [enclosedBy]
  rw [unquote, if_neg (by rw [hsingle]; simp), if_pos (enclosedBy_iff.mpr (by rw [hinner])), hinner]
  rfl

theorem unquote_of_not_enclosed {t : Text} (h : ∀ q : Quote, ¬enclosedBy q.char t = true) :
    unquote t = t := by
  have hsingle : ¬enclosedBy '\'' t = true := h .single
  have hdouble : ¬enclosedBy '"' t = true := h .double
  rw [unquote, if_neg hsingle, if_neg hdouble]

/-- Between double quotes that enclose the whole text, unquoting is one pass. -/
theorem unquote_of_insideDouble {inside : Text} (h : InsideDouble inside) :
    unquote ('"' :: (inside ++ ['"'])) = unescape inside := by
  rw [unquote_double, replace_replace_eq h]

end Text

/-! ## Closed tokens -/

open Text

/-- What may stand between quotes of a kind. -/
def Quote.Inside : Quote → Text → Prop
  | single, t => '\'' ∉ t
  | double, t => InsideDouble t

theorem Quote.inside_nil (q : Quote) : q.Inside [] := by
  cases q with
  | single => exact List.not_mem_nil
  | double => exact .nil

theorem Quote.Inside.cons {q : Quote} {c : Char} {t : Text} (hslash : ¬(q = .double ∧ c = '\\'))
    (hc : c ≠ q.char) (h : q.Inside t) : q.Inside (c :: t) := by
  cases q with
  | single =>
    have hquote : '\'' ≠ c := Ne.symm hc
    exact fun hmem => (List.mem_cons.mp hmem).elim hquote h
  | double => exact .char hc (fun hc => hslash ⟨rfl, hc⟩) h

/-- A quoted run that ends outside of quotes ends in the quote that closes it. -/
theorem exists_inside_of_after {q : Quote} {t : Text}
    (h : (Protection.mk (some q) false).after (t.take (quotedLength q t)) = .none) :
    ∃ inside, t.take (quotedLength q t) = inside ++ [q.char] ∧ q.Inside inside := by
  fun_induction quotedLength q t with
  | case1 => cases h
  | case2 c =>
    have hc : c = q.char := by
      by_contra hc
      by_cases hslash : q = .double ∧ c = '\\'
      · obtain ⟨rfl, rfl⟩ := hslash
        cases h
      · rw [List.take_succ_cons, List.take_zero, Protection.after_cons,
          Protection.step_inside hslash hc] at h
        cases h
    exact ⟨[], by rw [hc]; rfl, q.inside_nil⟩
  | case3 c d cs hslash ih =>
    obtain ⟨rfl, rfl⟩ := hslash
    obtain ⟨inside, hinside, hpairs⟩ := ih h
    exact ⟨'\\' :: d :: inside, by rw [List.take_succ_cons, List.take_succ_cons, hinside]; rfl,
      .pair d hpairs⟩
  | case4 d cs hslash => exact ⟨[], rfl, q.inside_nil⟩
  | case5 c d cs hslash hclose ih =>
    rw [List.take_succ_cons, Protection.after_cons, Protection.step_inside hslash hclose] at h
    obtain ⟨inside, hinside, hpairs⟩ := ih h
    exact ⟨c :: inside, by rw [List.take_succ_cons, hinside]; rfl, hpairs.cons hslash hclose⟩

theorem Quote.eq_char {c : Char} {q : Quote} (h : Quote.ofChar? c = some q) : c = q.char := by
  unfold Quote.ofChar? at h
  split at h
  · cases h
    assumption
  · split at h
    · cases h
      assumption
    · cases h

/-- A quoted token that is closed starts and ends with its quote, with nothing between that would
close it. -/
theorem exists_inside_of_complete {line : Text} {t : Token} {q : Quote} (ht : t ∈ tokenize line)
    (hquote : t.quote = some q) (h : t.Complete) :
    ∃ inside, t.value = q.char :: (inside ++ [q.char]) ∧ q.Inside inside := by
  obtain ⟨pos, c, cs, -, rfl⟩ := mem_tokenizeFrom_cases ht
  have hq : Quote.ofChar? c = some q := hquote
  have hlength : lexemeLength c cs = quotedLength q cs + 1 := by rw [lexemeLength, hq]
  have hvalue : (lexeme pos c cs).value = c :: cs.take (quotedLength q cs) := by
    rw [lexeme, hlength, List.take_succ_cons]
  have hchar : c = q.char := Quote.eq_char hq
  subst hchar
  have hne : q.char ≠ '\\' := by cases q <;> decide
  rw [Token.Complete, hvalue, Protection.after_cons, Protection.step_outside hne, hq] at h
  obtain ⟨inside, hinside, hpairs⟩ := exists_inside_of_after h
  exact ⟨inside, by rw [hvalue, hinside], hpairs⟩

/-! ## Bytes -/

namespace Text

/-- The bytes of a text. -/
def bytes (t : Text) : List UInt8 := t.flatMap String.utf8EncodeChar

/-- Unquoting by bytes. It fails if the slice between the first and the last byte would cut a
character. -/
def unquote? (t : Text) : Option Text :=
  if 2 ≤ (bytes t).length ∧ (bytes t).head? = (bytes t).getLast? then
    (slice? 1 ((bytes t).length - 1) t).map fun inside =>
      if (bytes t).head? = some 39 then inside
      else if (bytes t).head? = some 34 then
        replace ['\\', '\\'] ['\\'] (replace ['\\', '"'] ['"'] inside)
      else t
  else some t

theorem length_bytes (t : Text) : (bytes t).length = size t := by
  induction t with
  | nil => rfl
  | cons c t ih =>
    rw [bytes, List.flatMap_cons, List.length_append, String.length_utf8EncodeChar, size_cons]
    exact congrArg _ ih

/-- The first byte of a character of several bytes is at least 192. -/
theorem head?_utf8EncodeChar {c : Char} {b : UInt8} (h : (String.utf8EncodeChar c).head? = some b) :
    c.toNat < 128 ∧ c.toNat = b.toNat ∨ 192 ≤ b.toNat := by
  have hval : c.val.toNat = c.toNat := rfl
  rw [String.utf8EncodeChar, hval] at h
  split at h
  · obtain rfl := Option.some.inj h
    rw [UInt8.toNat_ofNat']
    omega
  · refine .inr ?_
    split at h
    · obtain rfl := Option.some.inj h
      rw [UInt8.toNat_ofNat']
      omega
    · split at h
      · obtain rfl := Option.some.inj h
        rw [UInt8.toNat_ofNat']
        omega
      · obtain rfl := Option.some.inj h
        rw [UInt8.toNat_ofNat']
        omega

/-- The last byte of a character of several bytes is below 192. -/
theorem getLast?_utf8EncodeChar {c : Char} {b : UInt8}
    (h : (String.utf8EncodeChar c).getLast? = some b) :
    c.toNat < 128 ∧ c.toNat = b.toNat ∨ 128 ≤ b.toNat ∧ b.toNat < 192 := by
  have hval : c.val.toNat = c.toNat := rfl
  rw [String.utf8EncodeChar, hval] at h
  split at h
  · have hone : b = UInt8.ofNat c.toNat := (Option.some.inj h).symm
    rw [hone, UInt8.toNat_ofNat']
    omega
  · refine .inr ?_
    have hlast : b = UInt8.ofNat (c.toNat % 64 + 128) := by
      split at h
      · exact (Option.some.inj h).symm
      · split at h <;> exact (Option.some.inj h).symm
    rw [hlast, UInt8.toNat_ofNat']
    omega

/-- A byte is the first of a character and the last of one only if both are the same character, of
this one byte. -/
theorem eq_of_head?_eq_getLast? {c d : Char}
    (h : (String.utf8EncodeChar c).head? = (String.utf8EncodeChar d).getLast?) :
    c = d ∧ c.utf8Size = 1 := by
  have hne : String.utf8EncodeChar c ≠ [] := String.utf8EncodeChar_ne_nil
  have hhead := List.head?_eq_some_head hne
  have hfirst := head?_utf8EncodeChar hhead
  have hlast := getLast?_utf8EncodeChar (h.symm.trans hhead)
  have hnat : c.toNat = d.toNat := by omega
  refine ⟨Char.ext (UInt32.toNat.inj hnat), ?_⟩
  rw [Char.utf8Size_eq_one_iff, UInt32.le_iff_toNat_le]
  have hsmall : c.toNat < 128 := by omega
  exact Nat.le_of_lt_succ hsmall

theorem bytes_cons (c : Char) (t : Text) : bytes (c :: t) = String.utf8EncodeChar c ++ bytes t :=
  List.flatMap_cons

theorem head?_bytes (c : Char) (t : Text) :
    (bytes (c :: t)).head? = (String.utf8EncodeChar c).head? := by
  have hne : String.utf8EncodeChar c ≠ [] := String.utf8EncodeChar_ne_nil
  rw [bytes_cons, List.head?_append, List.head?_eq_some_head hne]
  rfl

theorem getLast?_bytes (t : Text) (d : Char) :
    (bytes (t ++ [d])).getLast? = (String.utf8EncodeChar d).getLast? := by
  have hne : String.utf8EncodeChar d ≠ [] := String.utf8EncodeChar_ne_nil
  rw [bytes, List.flatMap_append, List.flatMap_singleton, List.getLast?_append,
    List.getLast?_eq_some_getLast hne]
  rfl

/-- If the first and the last of several bytes agree, both are characters, and the same one. -/
theorem exists_eq_of_ends {t : Text} (hlength : 2 ≤ (bytes t).length)
    (h : (bytes t).head? = (bytes t).getLast?) :
    ∃ c, t = c :: (inner t ++ [c]) ∧ c.utf8Size = 1 := by
  rw [length_bytes] at hlength
  cases t with
  | nil => cases hlength
  | cons c t =>
    rcases List.eq_nil_or_concat t with rfl | ⟨m, d, rfl⟩
    · have hlast := getLast?_bytes [] c
      rw [List.nil_append] at hlast
      rw [head?_bytes, hlast] at h
      have hone := (eq_of_head?_eq_getLast? h).2
      rw [size_cons, size_nil, hone] at hlength
      omega
    · rw [List.concat_eq_append] at *
      rw [head?_bytes, ← List.cons_append, getLast?_bytes] at h
      obtain ⟨rfl, hone⟩ := eq_of_head?_eq_getLast? h
      exact ⟨c, by simp [inner], hone⟩

/-- The bytes of a text in quotes start and end alike. -/
theorem ends_of_enclosedBy {q : Quote} {t : Text} (h : enclosedBy q.char t = true) :
    2 ≤ (bytes t).length ∧ (bytes t).head? = (bytes t).getLast? := by
  have ht := enclosedBy_iff.mp h
  have hone : q.char.utf8Size = 1 := by cases q <;> rfl
  constructor
  · rw [length_bytes, ht, size_cons, size_append, size_cons, hone]
    omega
  · have hends : (String.utf8EncodeChar q.char).head? =
        (String.utf8EncodeChar q.char).getLast? := by
      cases q <;> rfl
    rw [ht, head?_bytes, ← List.cons_append, getLast?_bytes, hends]

/-- Unquoting by bytes never fails, and gives the text without its quotes. -/
theorem unquote?_eq (t : Text) : unquote? t = some (unquote t) := by
  unfold unquote?
  split
  next hends =>
    obtain ⟨c, ht, hone⟩ := exists_eq_of_ends hends.1 hends.2
    have hslice : slice? 1 ((bytes t).length - 1) t = some (inner t) := by
      refine slice?_eq_some_iff.mpr ⟨[c], [c], ht, by simp [hone], ?_⟩
      have hsize : size t = 1 + (size (inner t) + 1) := by
        conv => lhs; rw [ht]
        simp [hone]
      rw [length_bytes, hsize, size_cons, hone, size_nil]
      omega
    have hfirst : (bytes t).head? = (String.utf8EncodeChar c).head? := by rw [ht, head?_bytes]
    rw [hslice, Option.map_some, hfirst]
    -- The two bytes that matter are the quotes.
    split
    next hsingle =>
      obtain rfl : c = '\'' := (eq_of_head?_eq_getLast? hsingle).1
      rw [ht, unquote_single, ← ht]
    next hsingle =>
      split
      next hdouble =>
        obtain rfl : c = '"' := (eq_of_head?_eq_getLast? hdouble).1
        rw [ht, unquote_double, ← ht]
      next hdouble =>
        refine congrArg some (unquote_of_not_enclosed fun q henclosed => ?_).symm
        rw [enclosedBy_iff, ht] at henclosed
        obtain rfl : c = q.char := (List.cons.inj henclosed).1
        cases q with
        | single => exact hsingle rfl
        | double => exact hdouble rfl
  next hends =>
    exact congrArg some (unquote_of_not_enclosed fun q h => hends (ends_of_enclosedBy h)).symm

end Text

/-- **Unquoting is exact.** It undoes escaping. On every token of every line that the lexer closes,
it gives what is between the quotes: as it is for single quotes, and in one pass from the left for
double quotes. And for every text the slice that it takes is one of whole characters. -/
theorem unquote_exact :
    (∀ s : Text, unquote ('"' :: (escape s ++ ['"'])) = s) ∧
      (∀ line, ∀ t ∈ tokenize line, t.Complete →
        (t.quote = some .double → ∃ inside, t.value = '"' :: (inside ++ ['"']) ∧
          unquote t.value = unescape inside) ∧
        (t.quote = some .single → ∃ inside, t.value = '\'' :: (inside ++ ['\'']) ∧
          unquote t.value = inside)) ∧
      ∀ t : Text, unquote? t = some (unquote t) := by
  refine ⟨fun s => ?_, fun line t ht hcomplete => ⟨fun hquote => ?_, fun hquote => ?_⟩, unquote?_eq⟩
  · rw [unquote_of_insideDouble (insideDouble_escape s), unescape_escape]
  · obtain ⟨inside, hvalue, hpairs⟩ := exists_inside_of_complete ht hquote hcomplete
    exact ⟨inside, hvalue, by rw [hvalue]; exact unquote_of_insideDouble hpairs⟩
  · obtain ⟨inside, hvalue, -⟩ := exists_inside_of_complete ht hquote hcomplete
    exact ⟨inside, hvalue, by rw [hvalue]; exact unquote_single inside⟩

/-- A token with three backslashes in front of a quote, a pair that is no escape and a protected
backslash at its end, then one in single quotes. -/
def slashesLine : Text := "\"\\\\\\\"é\\x\\\\\" 'a\\\\'".toList

theorem unquote_exact_slashesLine :
    tokenize slashesLine =
        [⟨"\"\\\\\\\"é\\x\\\\\"".toList, 0, 12, some .double⟩,
          ⟨"'a\\\\'".toList, 13, 18, some .single⟩] ∧
      unquote "\"\\\\\\\"é\\x\\\\\"" = "\\\"é\\x\\" ∧ unquote "'a\\\\'" = "a\\\\" := by
  have htokens : tokenize slashesLine =
      [⟨"\"\\\\\\\"é\\x\\\\\"".toList, 0, 12, some .double⟩,
        ⟨"'a\\\\'".toList, 13, 18, some .single⟩] := by
    decide +kernel
  obtain ⟨-, hclosed, -⟩ := unquote_exact
  have hmem : ∀ t ∈ [(⟨"\"\\\\\\\"é\\x\\\\\"".toList, 0, 12, some .double⟩ : Token),
      ⟨"'a\\\\'".toList, 13, 18, some .single⟩], t ∈ tokenize slashesLine ∧ t.Complete := by
    rw [htokens]
    decide
  refine ⟨htokens, ?_, ?_⟩
  · obtain ⟨hfirst, hcomplete⟩ := hmem _ List.mem_cons_self
    obtain ⟨inside, hvalue, hunquote⟩ := (hclosed _ _ hfirst hcomplete).1 rfl
    obtain rfl : "\\\\\\\"é\\x\\\\".toList = inside :=
      List.append_cancel_right (List.cons.inj hvalue).2
    exact hunquote
  · obtain ⟨hsecond, hcomplete⟩ := hmem _ (List.mem_cons_of_mem _ List.mem_cons_self)
    obtain ⟨inside, hvalue, hunquote⟩ := (hclosed _ _ hsecond hcomplete).2 rfl
    obtain rfl : "a\\\\".toList = inside :=
      List.append_cancel_right (List.cons.inj hvalue).2
    exact hunquote

end CrossShell
