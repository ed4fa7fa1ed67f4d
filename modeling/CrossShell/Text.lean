/-!
# Text of a command line

A text is its list of characters. Positions in a text are byte offsets of its UTF-8 encoding,
so cutting goes by `Char.utf8Size`.

* `Text.size`, `Text.dropBytes`, `Text.takeBytes`, `Text.slice`: measuring and cutting by bytes.
* `Text.replace`: every occurrence of a pattern, from the left, without overlaps.
* `Text.join`, `Text.splitOn`, `Text.splitOnce`: lists of texts and a separator.
* `Text.before`: the order of the encoded bytes, which is the order of the characters.

A string literal stands for its characters wherever a text is expected.
-/
namespace CrossShell

/-- A text, as its characters. -/
abbrev Text := List Char

instance : Coe String Text := ⟨String.toList⟩

namespace Text

/-- Length of the UTF-8 encoding in bytes. -/
def size (t : Text) : Nat := t.foldr (fun c n => c.utf8Size + n) 0

@[simp] theorem size_nil : size [] = 0 := rfl

@[simp] theorem size_cons (c : Char) (t : Text) : size (c :: t) = c.utf8Size + size t := rfl

@[simp] theorem size_append (s t : Text) : size (s ++ t) = size s + size t := by
  induction s with
  | nil => simp
  | cons c s ih => simp [ih, Nat.add_assoc]

/-- The text from byte offset `n` on. A character that the offset cuts is dropped. -/
def dropBytes : Nat → Text → Text
  | _, [] => []
  | 0, c :: cs => c :: cs
  | n + 1, c :: cs => dropBytes (n + 1 - c.utf8Size) cs

/-- The characters that start before byte offset `n`. -/
def takeBytes : Nat → Text → Text
  | _, [] => []
  | 0, _ :: _ => []
  | n + 1, c :: cs => c :: takeBytes (n + 1 - c.utf8Size) cs

/-- The bytes from `start` up to and without `stop`. -/
def slice (start stop : Nat) (t : Text) : Text :=
  takeBytes (stop - start) (dropBytes start t)

@[simp] theorem dropBytes_zero (t : Text) : dropBytes 0 t = t := by
  cases t <;> rfl

@[simp] theorem takeBytes_zero (t : Text) : takeBytes 0 t = [] := by
  cases t <;> rfl

/-- Dropping exactly the bytes of a leading part leaves what follows it. -/
theorem dropBytes_append (s t : Text) : dropBytes (size s) (s ++ t) = t := by
  induction s with
  | nil => simp
  | cons c s ih =>
    obtain ⟨n, hn⟩ : ∃ n, c.utf8Size + size s = n + 1 :=
      ⟨c.utf8Size + size s - 1, by have := c.utf8Size_pos; omega⟩
    have hs : n + 1 - c.utf8Size = size s := by omega
    simp [hn, dropBytes, hs, ih]

/-- Taking exactly the bytes of a leading part gives that part. -/
theorem takeBytes_append (s t : Text) : takeBytes (size s) (s ++ t) = s := by
  induction s with
  | nil => simp
  | cons c s ih =>
    obtain ⟨n, hn⟩ : ∃ n, c.utf8Size + size s = n + 1 :=
      ⟨c.utf8Size + size s - 1, by have := c.utf8Size_pos; omega⟩
    have hs : n + 1 - c.utf8Size = size s := by omega
    simp [hn, takeBytes, hs, ih]

/-- The slice between two offsets that stand at the ends of a middle part is that part. -/
theorem slice_append (a s b : Text) : slice (size a) (size a + size s) (a ++ (s ++ b)) = s := by
  simp [slice, dropBytes_append, takeBytes_append]

/-- Whether `part` occurs in a text. -/
def occursIn (part : Text) : Text → Bool
  | [] => part.isEmpty
  | c :: cs => part.isPrefixOf (c :: cs) || occursIn part cs

/-- Replaces each occurrence of `old` by `new`, from the left and without overlaps, while `skip`
characters of the last occurrence are still to be passed over. -/
def replaceFrom (old new : Text) : Nat → Text → Text
  | _, [] => []
  | skip + 1, _ :: cs => replaceFrom old new skip cs
  | 0, c :: cs =>
    if old.isPrefixOf (c :: cs) then new ++ replaceFrom old new (old.length - 1) cs
    else c :: replaceFrom old new 0 cs

/-- Replaces each occurrence of `old`, which is not empty, by `new`. -/
def replace (old new t : Text) : Text := replaceFrom old new 0 t

/-- Puts `sep` between neighbours. -/
def join (sep : Text) : List Text → Text
  | [] => []
  | [t] => t
  | t :: u :: ts => t ++ sep ++ join sep (u :: ts)

/-- The parts between the occurrences of a character; there is always at least one part. -/
def splitOn (sep : Char) : Text → List Text
  | [] => [[]]
  | c :: cs =>
    if c = sep then [] :: splitOn sep cs
    else match splitOn sep cs with
      | part :: parts => (c :: part) :: parts
      | [] => [[c]]

/-- The parts before and after the first occurrence of a character. -/
def splitOnce (sep : Char) : Text → Option (Text × Text)
  | [] => none
  | c :: cs =>
    if c = sep then some ([], cs)
    else (splitOnce sep cs).map fun (a, b) => (c :: a, b)

/-- The text without a leading `part`, if it starts with it. -/
def dropFront? (t part : Text) : Option Text :=
  if part.isPrefixOf t then some (t.drop part.length) else none

/-- The text without a trailing `part`, if it ends with it. -/
def dropBack? (t part : Text) : Option Text :=
  if part.isSuffixOf t then some (t.take (t.length - part.length)) else none

theorem splitOn_cons {c sep : Char} (hc : c ≠ sep) (t : Text) :
    ∃ part parts, splitOn sep t = part :: parts ∧ splitOn sep (c :: t) = (c :: part) :: parts := by
  have hne : splitOn sep t ≠ [] := by
    cases t with
    | nil => simp [splitOn]
    | cons d t =>
      rw [splitOn]
      split
      · simp
      · split <;> simp
  obtain ⟨part, parts, hsplit⟩ := List.exists_cons_of_ne_nil hne
  exact ⟨part, parts, hsplit, by rw [splitOn, if_neg hc, hsplit]⟩

/-- A text without the separator is one part. -/
theorem splitOn_of_notMem {sep : Char} {t : Text} (h : sep ∉ t) : splitOn sep t = [t] := by
  induction t with
  | nil => rfl
  | cons c t ih =>
    rw [List.mem_cons, not_or] at h
    rw [splitOn, if_neg (Ne.symm h.1), ih h.2]

/-- The first part ends at the first separator. -/
theorem splitOn_append {sep : Char} {t : Text} (h : sep ∉ t) (u : Text) :
    splitOn sep (t ++ sep :: u) = t :: splitOn sep u := by
  induction t with
  | nil => rw [List.nil_append, splitOn, if_pos rfl]
  | cons c t ih =>
    rw [List.mem_cons, not_or] at h
    rw [List.cons_append, splitOn, if_neg (Ne.symm h.1), ih h.2]

theorem splitOnce_of_notMem {sep : Char} {t : Text} (h : sep ∉ t) : splitOnce sep t = none := by
  induction t with
  | nil => rfl
  | cons c t ih =>
    rw [List.mem_cons, not_or] at h
    rw [splitOnce, if_neg (Ne.symm h.1), ih h.2]
    rfl

theorem splitOnce_append {sep : Char} {t : Text} (h : sep ∉ t) (u : Text) :
    splitOnce sep (t ++ sep :: u) = some (t, u) := by
  induction t with
  | nil => rw [List.nil_append, splitOnce, if_pos rfl]
  | cons c t ih =>
    rw [List.mem_cons, not_or] at h
    rw [List.cons_append, splitOnce, if_neg (Ne.symm h.1), ih h.2]
    rfl

theorem dropFront?_append (part rest : Text) : dropFront? (part ++ rest) part = some rest := by
  simp [dropFront?]

theorem dropFront?_eq_some_iff {t part rest : Text} :
    dropFront? t part = some rest ↔ t = part ++ rest := by
  constructor
  · intro h
    unfold dropFront? at h
    split at h
    · rename_i hfront
      obtain ⟨more, rfl⟩ := List.isPrefixOf_iff_prefix.mp hfront
      rw [List.drop_left] at h
      rw [Option.some.inj h]
    · cases h
  · rintro rfl
    exact dropFront?_append part rest

theorem dropBack?_append (base part : Text) : dropBack? (base ++ part) part = some base := by
  simp [dropBack?]

/-- The order of texts by their characters, first difference first. -/
def before : Text → Text → Bool
  | [], [] => false
  | [], _ :: _ => true
  | _ :: _, [] => false
  | a :: s, b :: t => if a = b then before s t else a.toNat < b.toNat

/-- The lower case of the letters A to Z; all else stays. -/
def toLower (t : Text) : Text := t.map Char.toLower

/-- The upper case of the letters a to z; all else stays. -/
def toUpper (t : Text) : Text := t.map Char.toUpper

/-- The decimal digits of a number. -/
def ofNat (n : Nat) : Text := Nat.toDigits 10 n

end Text

end CrossShell
