import CrossShell.Proofs.Special.Given
import CrossShell.Proofs.Stage.Finish
import CrossShell.Proofs.Stage.PlainCommand
import CrossShell.Proofs.Token.Unquote

/-!
# The lines that a stage keeps

`head`, `tail` and `sed -n` number lines from 1 and say which numbers are printed. The stages they
become keep lines from the front, from the back or by index, and an index counts from 0.

* `LineCommand`: the commands that print lines by number, with their numbers as written, and
  `LineCommand.printed`: the lines that they print.
* `Selection.keep`: the lines that a converted stage keeps, and `readSelection?`: how it is read.
* `linesWhere_eq`: numbers without a gap are a slice of the lines; both sides are brought to it.
* `LineCommand.Refused`: a number that is too large, is zero or lies in front of another.
* `checkedPrint?`: a script read with a subtraction that can fail.
* `selected_lines_printed`: a stage that is refused stays as it is, and any other keeps the lines
  that its command prints.
-/

namespace CrossShell

/-! ## Numbers as they are written -/

/-- A number as it is written: digits, at least one. -/
structure Numeral where
  /-- The digits. -/
  digits : Text
  ne_nil : digits ≠ []
  isDigit_of_mem : ∀ c ∈ digits, c.isDigit = true

namespace Numeral

/-- The number. -/
def value (n : Numeral) : Nat := Nat.ofDigitChars 10 n.digits 0

/-- A number in its shortest form. -/
def ofNat (n : Nat) : Numeral where
  digits := Text.ofNat n
  ne_nil := Nat.toDigits_ne_nil
  isDigit_of_mem := fun _ hc => Nat.isDigit_of_mem_toDigits (by decide) (by decide) hc

theorem value_ofNat (n : Nat) : (ofNat n).value = n := Nat.ofDigitChars_ten_toDigits

variable (n : Numeral)

theorem notMem_digits {c : Char} (hc : c.isDigit = false) : c ∉ n.digits := by
  intro hmem
  rw [n.isDigit_of_mem c hmem] at hc
  cases hc

theorem isEmpty_digits : n.digits.isEmpty = false := by simp [n.ne_nil]

theorem all_digits : n.digits.all Char.isDigit = true := List.all_eq_true.mpr n.isDigit_of_mem

theorem unsignedDigits_digits : Text.unsignedDigits n.digits = n.digits := by
  unfold Text.unsignedDigits
  split
  · rename_i rest heq
    exact absurd (heq ▸ List.mem_cons_self) (n.notMem_digits (c := '+') rfl)
  · rfl

/-- A number is read if it fits in 64 bits. -/
theorem toNat64?_digits :
    Text.toNat64? n.digits = if n.value < UInt64.size then some n.value else none := by
  have hvalue : Text.digitsValue 0 n.digits = n.value := rfl
  rw [Text.toNat64?, Text.toNatBelow?, unsignedDigits_digits, n.isEmpty_digits, n.all_digits,
    hvalue]
  rfl

end Numeral

/-- The number that a text is. -/
def readNumber? (t : Text) : Option Nat :=
  if !t.isEmpty && t.all Char.isDigit then some (Nat.ofDigitChars 10 t 0) else none

theorem readNumber?_ofNat (n : Nat) : readNumber? (Text.ofNat n) = some n := by
  have hempty : (Text.ofNat n).isEmpty = false := (Numeral.ofNat n).isEmpty_digits
  have hall : (Text.ofNat n).all Char.isDigit = true := (Numeral.ofNat n).all_digits
  rw [readNumber?, hempty, hall]
  exact congrArg some (Numeral.value_ofNat n)

/-! ## Lines by number -/

section

variable {α : Type}

/-- The lines whose numbers pass a test, if the first has the number `number`. -/
def linesWhere (test : Nat → Bool) : (number : Nat) → List α → List α
  | _, [] => []
  | number, line :: lines =>
    if test number then line :: linesWhere test (number + 1) lines
    else linesWhere test (number + 1) lines

/-- Numbers without a gap are a slice of the lines. -/
theorem linesWhere_eq {test : Nat → Bool} {number i n : Nat} {lines : List α}
    (h : ∀ k, number ≤ k → k < number + lines.length →
      (test k = true ↔ number + i ≤ k ∧ k < number + i + n)) :
    linesWhere test number lines = (lines.drop i).take n := by
  induction lines generalizing number i n with
  | nil => simp [linesWhere]
  | cons line lines ih =>
    have hfirst := h number (Nat.le_refl _) (by simp)
    have hrest (k : Nat) (hk : number + 1 ≤ k) (hlast : k < number + 1 + lines.length) :=
      h k (by omega) (by simp only [List.length_cons]; omega)
    rw [linesWhere]
    cases i with
    | zero =>
      cases n with
      | zero =>
        rw [if_neg (by rw [hfirst]; omega)]
        refine (ih (i := 0) (n := 0) fun k hk hlast => ?_).trans (by simp)
        rw [hrest k hk hlast]
        omega
      | succ n =>
        rw [if_pos (by rw [hfirst]; omega)]
        refine congrArg (line :: ·) (ih (i := 0) fun k hk hlast => ?_)
        rw [hrest k hk hlast]
        omega
    | succ i =>
      rw [if_neg (by rw [hfirst]; omega)]
      refine ih fun k hk hlast => ?_
      rw [hrest k hk hlast]
      omega

end

/-- The commands that print lines by number. -/
inductive LineCommand where
  /-- `head -n N`. -/
  | head (n : Numeral)
  /-- `tail -n N`. -/
  | tail (n : Numeral)
  /-- `tail -n +K`. -/
  | tailFrom (k : Numeral)
  /-- `sed -n Np`. -/
  | printLine (n : Numeral)
  /-- `sed -n M,Np`. -/
  | printRange (m n : Numeral)
  /-- `sed -n 'M,$p'`. -/
  | printFrom (m : Numeral)
  /-- `sed -n '$p'`. -/
  | printLast

namespace LineCommand

/-- Whether the line with a number from 1 is printed, of an input with `total` lines. -/
def prints : LineCommand → (total number : Nat) → Bool
  | head n, _, number => number ≤ n.value
  | tail n, total, number => total < number + n.value
  | tailFrom k, _, number => k.value ≤ number
  | printLine n, _, number => number = n.value
  | printRange m n, _, number => m.value ≤ number && number ≤ n.value
  | printFrom m, _, number => m.value ≤ number
  | printLast, total, number => number = total

/-- The lines of an input that are printed. -/
def printed (c : LineCommand) (lines : List Text) : List Text :=
  linesWhere (c.prints lines.length) 1 lines

/-- A number does not fit in 64 bits, the number of a line is zero, or a range ends in front of its
start. -/
def Refused : LineCommand → Prop
  | head n | tail n | tailFrom n => UInt64.size ≤ n.value
  | printLine n | printFrom n => n.value = 0 ∨ UInt64.size ≤ n.value
  | printRange m n =>
    m.value = 0 ∨ n.value < m.value ∨ UInt64.size ≤ m.value ∨ UInt64.size ≤ n.value
  | printLast => False

instance : (c : LineCommand) → Decidable c.Refused
  | head _ | tail _ | tailFrom _ => inferInstanceAs (Decidable (_ ≤ _))
  | printLine _ | printFrom _ => inferInstanceAs (Decidable (_ ∨ _))
  | printRange _ _ => inferInstanceAs (Decidable (_ ∨ _))
  | printLast => inferInstanceAs (Decidable False)

end LineCommand

/-! ## Selections -/

/-- The numbers from `i` to `j`, upwards or downwards. -/
def indexRange (i j : Nat) : List Nat :=
  if i ≤ j then List.range' i (j + 1 - i) else (List.range' j (i + 1 - j)).reverse

namespace Selection

/-- The lines that are kept. An index without a line keeps nothing. -/
def keep : Selection → List Text → List Text
  | first n, lines => lines.take n
  | last n, lines => lines.drop (lines.length - n)
  | skip n, lines => lines.drop n
  | index i, lines => lines[i]?.toList
  | range i j, lines => (indexRange i j).filterMap (lines[·]?)

theorem keep_index (i : Nat) (lines : List Text) :
    (index i).keep lines = (lines.drop i).take 1 := by
  rw [keep, List.take_one, List.head?_drop]

theorem filterMap_range' (lines : List Text) (i n : Nat) :
    (List.range' i n).filterMap (lines[·]?) = (lines.drop i).take n := by
  induction n generalizing i with
  | zero => simp
  | succ n ih =>
    rw [List.range'_succ, List.filterMap_cons, ih]
    cases hline : lines[i]? with
    | none =>
      have hlength := List.getElem?_eq_none_iff.mp hline
      rw [List.drop_eq_nil_of_le hlength, List.drop_eq_nil_of_le (by omega)]
      simp
    | some line =>
      obtain ⟨hlength, rfl⟩ := List.getElem?_eq_some_iff.mp hline
      rw [List.drop_eq_getElem_cons hlength]
      rfl

theorem keep_range {i j : Nat} (h : i ≤ j) (lines : List Text) :
    (range i j).keep lines = (lines.drop i).take (j + 1 - i) := by
  rw [keep, indexRange, if_pos h, filterMap_range']

end Selection

/-- The numbers that `(I..J)` is written with. -/
def readRange? (t : Text) : Option (Nat × Nat) :=
  match t with
  | '(' :: t => do
    let first := t.takeWhile Char.isDigit
    let back ← Text.dropFront? (t.drop first.length) ['.', '.']
    let last ← Text.dropBack? back [')']
    return (← readNumber? first, ← readNumber? last)
  | _ => none

/-- The selection that a switch and its value are. -/
def readSwitch? (switch value : Text) : Option Selection :=
  if switch = "-First" then (readNumber? value).map .first
  else if switch = "-Last" then (readNumber? value).map .last
  else if switch = "-Skip" then (readNumber? value).map .skip
  else if switch = "-Index" then
    ((readNumber? value).map .index).or ((readRange? value).map fun (i, j) => .range i j)
  else none

/-- The selection that a stage is: three words with one space between them. -/
def readSelection? (stage : Text) : Option Selection :=
  match Text.splitOn ' ' stage with
  | [command, switch, value] =>
    if command = "Select-Object" then readSwitch? switch value else none
  | _ => none

namespace Selection

/-- How the lines are selected. -/
def switch : Selection → Text
  | first _ => "-First"
  | last _ => "-Last"
  | skip _ => "-Skip"
  | index _ | range _ _ => "-Index"

/-- What the switch is given. -/
def value : Selection → Text
  | first n | last n | skip n | index n => Text.ofNat n
  | range i j => '(' :: (Text.ofNat i ++ (['.', '.'] ++ (Text.ofNat j ++ [')'])))

theorem text_eq (s : Selection) :
    s.text = "Select-Object".toList ++ ' ' :: (s.switch ++ ' ' :: s.value) := by
  have hfronts :
      "Select-Object -First ".toList = "Select-Object".toList ++ ' ' :: "-First ".toList ∧
      "Select-Object -Last ".toList = "Select-Object".toList ++ ' ' :: "-Last ".toList ∧
      "Select-Object -Skip ".toList = "Select-Object".toList ++ ' ' :: "-Skip ".toList ∧
      "Select-Object -Index ".toList = "Select-Object".toList ++ ' ' :: "-Index ".toList ∧
      "Select-Object -Index (".toList = "Select-Object".toList ++ ' ' :: "-Index (".toList := by
    decide +kernel
  obtain ⟨hfirst, hlast, hskip, hindex, hrange⟩ := hfronts
  cases s with
  | first n => exact (congrArg (· ++ Text.ofNat n) hfirst).trans (List.append_assoc ..)
  | last n => exact (congrArg (· ++ Text.ofNat n) hlast).trans (List.append_assoc ..)
  | skip n => exact (congrArg (· ++ Text.ofNat n) hskip).trans (List.append_assoc ..)
  | index i => exact (congrArg (· ++ Text.ofNat i) hindex).trans (List.append_assoc ..)
  | range i j =>
    have htext : (range i j).text = "Select-Object -Index (".toList ++
        (Text.ofNat i ++ (['.', '.'] ++ (Text.ofNat j ++ [')']))) :=
      (List.append_assoc ..).trans <| (List.append_assoc ..).trans <| List.append_assoc ..
    rw [htext, hrange, List.append_assoc]
    rfl

theorem notMem_switch (s : Selection) : ' ' ∉ s.switch := by
  cases s <;> exact of_decide_eq_true rfl

theorem notMem_value (s : Selection) : ' ' ∉ s.value := by
  have hspace (n : Nat) : ' ' ∉ Text.ofNat n := (Numeral.ofNat n).notMem_digits rfl
  cases s <;> simp [value, hspace]

end Selection

theorem readRange?_value (i j : Nat) : readRange? (Selection.range i j).value = some (i, j) := by
  have hdigits : ∀ c ∈ Text.ofNat i, c.isDigit = true := (Numeral.ofNat i).isDigit_of_mem
  have hfirst : (Text.ofNat i ++ (['.', '.'] ++ (Text.ofNat j ++ [')']))).takeWhile Char.isDigit =
      Text.ofNat i := by
    rw [List.takeWhile_append_of_pos hdigits]
    exact List.append_nil _
  rw [Selection.value, readRange?, hfirst, List.drop_left, Text.dropFront?_append]
  simp [Text.dropBack?_append, readNumber?_ofNat]

theorem readSwitch?_value (s : Selection) : readSwitch? s.switch s.value = some s := by
  cases s with
  | first n => exact congrArg (Option.map Selection.first) (readNumber?_ofNat n)
  | last n => exact congrArg (Option.map Selection.last) (readNumber?_ofNat n)
  | skip n => exact congrArg (Option.map Selection.skip) (readNumber?_ofNat n)
  | index i =>
    have hread : readSwitch? (Selection.index i).switch (Selection.index i).value =
        ((readNumber? (Text.ofNat i)).map .index).or
          ((readRange? (Text.ofNat i)).map fun (i, j) => .range i j) := rfl
    rw [hread, readNumber?_ofNat]
    rfl
  | range i j =>
    exact congrArg (Option.map fun (i, j) => Selection.range i j) (readRange?_value i j)

/-- A selection is read as it is written. -/
theorem readSelection?_text (s : Selection) : readSelection? s.text = some s := by
  rw [readSelection?, s.text_eq, Text.splitOn_append (by decide),
    Text.splitOn_append s.notMem_switch, Text.splitOn_of_notMem s.notMem_value]
  exact (if_pos rfl).trans (readSwitch?_value s)

namespace LineCommand

/-- The selection that a command becomes. -/
def selection : LineCommand → Selection
  | head n => .first n.value
  | tail n => .last n.value
  | tailFrom k => .skip (k.value - 1)
  | printLine n => .index (n.value - 1)
  | printRange m n => .range (m.value - 1) (n.value - 1)
  | printFrom m => .skip (m.value - 1)
  | printLast => .last 1

/-- The selection of a command that is not refused. -/
def selection? (c : LineCommand) : Option Selection := if c.Refused then none else some c.selection

theorem printed_eq {c : LineCommand} {lines : List Text} {i n : Nat}
    (h : ∀ k, 1 ≤ k → k ≤ lines.length →
      (c.prints lines.length k = true ↔ i + 1 ≤ k ∧ k ≤ i + n)) :
    c.printed lines = (lines.drop i).take n := by
  refine linesWhere_eq fun k hk hlast => ?_
  rw [h k hk (by omega)]
  omega

theorem printed_eq_drop {c : LineCommand} {lines : List Text} {i : Nat}
    (h : ∀ k, 1 ≤ k → k ≤ lines.length → (c.prints lines.length k = true ↔ i + 1 ≤ k)) :
    c.printed lines = lines.drop i := by
  have hslice : c.printed lines = (lines.drop i).take lines.length := by
    refine printed_eq fun k hk hlast => ?_
    rw [h k hk hlast]
    omega
  rw [hslice, List.take_of_length_le (by rw [List.length_drop]; omega)]

/-- A command that is not refused prints the lines that its selection keeps. -/
theorem keep_selection {c : LineCommand} (h : ¬c.Refused) (lines : List Text) :
    c.selection.keep lines = c.printed lines := by
  cases c with
  | head n =>
    refine (printed_eq (i := 0) fun k hk _ => ?_).symm
    simp only [prints, decide_eq_true_eq]
    omega
  | tail n | tailFrom n | printFrom n | printLast =>
    refine (printed_eq_drop fun k hk hlast => ?_).symm
    simp only [prints, decide_eq_true_eq]
    omega
  | printLine n =>
    simp only [Refused, not_or] at h
    refine (Selection.keep_index _ lines).trans (printed_eq fun k hk hlast => ?_).symm
    simp only [prints, decide_eq_true_eq]
    omega
  | printRange m n =>
    simp only [Refused, not_or] at h
    refine (Selection.keep_range (by omega) lines).trans (printed_eq fun k hk hlast => ?_).symm
    simp only [prints, Bool.and_eq_true, decide_eq_true_eq]
    omega

/-! ## How commands are written -/

/-- The lines as they are given: a count, or a script. -/
def argument : LineCommand → Text
  | head n | tail n => n.digits
  | tailFrom k => '+' :: k.digits
  | printLine n => n.digits ++ ['p']
  | printRange m n => m.digits ++ ',' :: n.digits ++ ['p']
  | printFrom m => m.digits ++ [',', '$', 'p']
  | printLast => ['$', 'p']

/-- The command by its name alone. -/
def special : LineCommand → Special
  | head _ => .head
  | tail _ | tailFrom _ => .tail
  | printLine _ | printRange _ _ | printFrom _ | printLast => .sed

/-- A word that the shell hands on as the argument: as it is, or a script in quotes. Only between
single quotes a `$` is left to the command. -/
def SpelledBy (c : LineCommand) (word : Text) : Prop :=
  word = c.argument ∧ '$' ∉ c.argument ∨
    c.special = .sed ∧ word = '\'' :: (c.argument ++ ['\'']) ∨
    c.special = .sed ∧ word = '"' :: (c.argument ++ ['"']) ∧ '$' ∉ c.argument

end LineCommand

/-- The only flag is `-n`, which stands between the words `front` and `back`. -/
def Invocation.GivesOnlyN (inv : Invocation) (front back : List TaggedToken) : Prop :=
  ∃ flag : TaggedToken, flag.isFlag = true ∧ flag.value = ['-', 'n'] ∧
    inv.words = front ++ flag :: back ∧ (∀ w ∈ front, w.isFlag = false) ∧
    ∀ w ∈ back, w.isFlag = false

/-- An invocation is the command on some files. A count stands behind `-n`, and a script is the
first word that is no flag. -/
def LineCommand.WrittenIn (c : LineCommand) (inv : Invocation) (files : List Text) : Prop :=
  inv.name = c.special.name ∧ ∃ front back word, inv.GivesOnlyN front back ∧ c.SpelledBy word ∧
    if c.special = .sed then (front ++ back).map (·.value) = word :: files
    else ∃ behind, back.map (·.value) = word :: behind ∧ files = front.map (·.value) ++ behind

/-! ## Scripts -/

theorem Numeral.isAddress_digits (n : Numeral) : isAddress n.digits = true := by
  rw [isAddress, n.isEmpty_digits, n.all_digits]
  simp

/-- An index is one less than its number, and the number 0 has none. -/
theorem toIndex64?_eq (t : Text) : Text.toIndex64? t = (Text.toNat64? t).bind pred? := by
  unfold Text.toIndex64?
  rcases Text.toNat64? t with _ | _ | n <;> rfl

theorem Numeral.toIndex64?_digits (n : Numeral) : Text.toIndex64? n.digits =
    if n.value = 0 ∨ UInt64.size ≤ n.value then none else some (n.value - 1) := by
  rw [toIndex64?_eq, n.toNat64?_digits]
  by_cases hfits : n.value < UInt64.size
  · rw [if_pos hfits]
    cases hvalue : n.value with
    | zero => rfl
    | succ i =>
      rw [if_neg (by omega)]
      rfl
  · rw [if_neg hfits, if_pos (by omega)]
    rfl

theorem lineRange?_dollar (start : Text) :
    lineRange? start ['$'] = (Text.toIndex64? start).map .skip := by
  unfold lineRange?
  cases Text.toIndex64? start <;> rfl

theorem lineRange?_of_ne (start : Text) {stop : Text} (h : stop ≠ ['$']) :
    lineRange? start stop =
      (Text.toIndex64? start).bind fun i => (Text.toIndex64? stop).bind fun j =>
        if j < i then none else some (.range i j) := by
  unfold lineRange?
  cases Text.toIndex64? start with
  | none => rfl
  | some i => exact if_neg h

/-- One address and `p`. -/
theorem printSelection?_line {address : Text}
    (htrim : Text.trim (address ++ ['p']) = address ++ ['p']) (hcomma : ',' ∉ address)
    (haddress : isAddress address = true) :
    printSelection? (address ++ ['p']) = oneLine? address := by
  have hback : Text.dropBack? (address ++ ['p']) "p".toList = some address :=
    Text.dropBack?_append address ['p']
  unfold printSelection?
  simp only [htrim, hback, Text.splitOnce_of_notMem hcomma, haddress, if_true]

/-- Two addresses and `p`. -/
theorem printSelection?_range {start stop : Text}
    (htrim : Text.trim (start ++ ',' :: stop ++ ['p']) = start ++ ',' :: stop ++ ['p'])
    (hcomma : ',' ∉ start) (hstart : isAddress start = true) (hstop : isAddress stop = true) :
    printSelection? (start ++ ',' :: stop ++ ['p']) = lineRange? start stop := by
  have hback : Text.dropBack? (start ++ ',' :: stop ++ ['p']) "p".toList =
      some (start ++ ',' :: stop) := Text.dropBack?_append _ ['p']
  unfold printSelection?
  simp only [htrim, hback, Text.splitOnce_append hcomma, hstart, hstop, Bool.and_true, if_true]

namespace LineCommand

variable {c : LineCommand}

theorem mem_argument {d : Char} (h : d ∈ c.argument) :
    d.isDigit = true ∨ d ∈ ['+', ',', '$', 'p'] := by
  have hdigit (n : Numeral) (hd : d ∈ n.digits) : d.isDigit = true := n.isDigit_of_mem d hd
  cases c <;>
    simp only [argument, List.mem_append, List.mem_cons, List.not_mem_nil, or_false] at h ⊢
  all_goals grind

theorem notMem_argument {d : Char} (hdigit : d.isDigit = false) (hd : d ∉ ['+', ',', '$', 'p']) :
    d ∉ c.argument := by
  intro hmem
  rcases mem_argument hmem with h | h
  · rw [h] at hdigit
    cases hdigit
  · exact hd h

theorem isBlank_of_mem_argument {d : Char} (h : d ∈ c.argument) : Text.isBlank d = false := by
  rcases mem_argument h with h | h
  · exact isBlank_of_isWordChar (by simp [isWordChar, Char.isAlphanum, h])
  · have hsigns : ∀ d ∈ ['+', ',', '$', 'p'], Text.isBlank d = false := by decide
    exact hsigns d h

theorem trim_argument : Text.trim c.argument = c.argument := by
  have htrimmed : Text.Trimmed c.argument :=
    ⟨fun _ hd => isBlank_of_mem_argument (List.mem_of_mem_head? hd),
      fun _ hd => isBlank_of_mem_argument (List.mem_of_mem_getLast? hd)⟩
  simpa using Text.trim_of_trimmed Text.blank_nil htrimmed Text.blank_nil

/-- A script is handed on without its quotes. -/
theorem unquote_of_spelledBy {word : Text} (h : c.SpelledBy word) :
    Text.unquote word = c.argument := by
  rcases h with ⟨rfl, -⟩ | ⟨-, rfl⟩ | ⟨-, rfl, -⟩
  · refine Text.unquote_of_not_enclosed fun q henclosed => ?_
    have hmem : q.char ∈ c.argument := by
      rw [Text.enclosedBy_iff.mp henclosed]
      exact List.mem_cons_self
    cases q <;> exact notMem_argument rfl (by decide) hmem
  · exact Text.unquote_single _
  · have hquote : '"' ∉ c.argument := notMem_argument rfl (by decide)
    have hslash : '\\' ∉ c.argument := notMem_argument rfl (by decide)
    have hinside := Text.InsideDouble.append hquote hslash .nil
    have hplain := Text.unescape_append hslash []
    rw [List.append_nil] at hinside hplain
    rw [Text.unquote_of_insideDouble hinside, hplain]
    exact List.append_nil _

theorem eq_argument_of_spelledBy {word : Text} (h : c.SpelledBy word)
    (hspecial : c.special ≠ .sed) : word = c.argument := by
  rcases h with ⟨rfl, -⟩ | ⟨hsed, -⟩ | ⟨hsed, -⟩
  · rfl
  · exact absurd hsed hspecial
  · exact absurd hsed hspecial

/-- What the script of a command selects. -/
theorem printSelection?_argument (h : c.special = .sed) :
    printSelection? c.argument = c.selection? := by
  have hcomma (n : Numeral) : ',' ∉ n.digits := n.notMem_digits rfl
  have hdollar (n : Numeral) : n.digits ≠ ['$'] := fun heq =>
    n.notMem_digits (c := '$') rfl (heq ▸ List.mem_cons_self)
  have htrim := trim_argument (c := c)
  unfold selection?
  cases c with
  | head n | tail n | tailFrom n => cases h
  | printLine n =>
    have hline : oneLine? n.digits = (Text.toIndex64? n.digits).map .index := if_neg (hdollar n)
    rw [argument, printSelection?_line htrim (hcomma n) n.isAddress_digits, hline,
      n.toIndex64?_digits]
    exact apply_ite ..
  | printRange m n =>
    rw [argument, printSelection?_range htrim (hcomma m) m.isAddress_digits n.isAddress_digits,
      lineRange?_of_ne _ (hdollar n), m.toIndex64?_digits, n.toIndex64?_digits]
    have hrefused : (printRange m n).Refused ↔ (m.value = 0 ∨ UInt64.size ≤ m.value) ∨
        (n.value = 0 ∨ UInt64.size ≤ n.value) ∨ n.value - 1 < m.value - 1 := by
      simp only [Refused]
      omega
    by_cases hm : m.value = 0 ∨ UInt64.size ≤ m.value
    · rw [if_pos hm, if_pos (hrefused.mpr (.inl hm))]
      rfl
    rw [if_neg hm, Option.bind_some]
    by_cases hn : n.value = 0 ∨ UInt64.size ≤ n.value
    · rw [if_pos hn, if_pos (hrefused.mpr (.inr (.inl hn)))]
      rfl
    rw [if_neg hn, Option.bind_some]
    by_cases hlt : n.value - 1 < m.value - 1
    · rw [if_pos hlt, if_pos (hrefused.mpr (.inr (.inr hlt)))]
    · rw [if_neg hlt, if_neg fun h => by rcases hrefused.mp h with h | h | h <;> contradiction]
      rfl
  | printFrom m =>
    have hargument : (printFrom m).argument = m.digits ++ ',' :: ['$'] ++ ['p'] := by
      simp [argument]
    rw [hargument] at htrim ⊢
    rw [printSelection?_range htrim (hcomma m) m.isAddress_digits rfl, lineRange?_dollar,
      m.toIndex64?_digits]
    exact apply_ite ..
  | printLast => rfl

/-- What a count selects. -/
theorem count_argument (n : Numeral) {f : Nat → Selection} :
    (Text.toNat64? n.digits).map f = if UInt64.size ≤ n.value then none else some (f n.value) := by
  rw [n.toNat64?_digits]
  by_cases hfits : n.value < UInt64.size
  · rw [if_pos hfits, if_neg (by omega)]
    rfl
  · rw [if_neg hfits, if_pos (by omega)]
    rfl

theorem tailSelection?_argument (h : c.special = .tail) :
    tailSelection? c.argument = c.selection? := by
  cases c with
  | tail n =>
    have hplus : Text.dropFront? n.digits "+".toList = none := by
      refine if_neg fun hfront => ?_
      rw [List.isPrefixOf_iff_prefix] at hfront
      exact n.notMem_digits (c := '+') rfl (hfront.subset List.mem_cons_self)
    unfold tailSelection?
    simp only [argument, hplus]
    exact count_argument n
  | tailFrom k => exact count_argument k
  | _ => cases h

end LineCommand

/-! ## Stages -/

namespace Invocation.GivesOnlyN

variable {inv : Invocation} {front back : List TaggedToken}

theorem flags_eq (h : inv.GivesOnlyN front back) : inv.flags = [['-', 'n']] := by
  obtain ⟨flag, hflag, hvalue, hwords, hfront, hback⟩ := h
  have hnone {ws : List TaggedToken} (hws : ∀ w ∈ ws, w.isFlag = false) :
      ws.filter (·.isFlag) = [] :=
    List.filter_eq_nil_iff.mpr fun w hw => by simp [hws w hw]
  rw [flags, hwords, List.filter_append, List.filter_cons_of_pos hflag, hnone hfront, hnone hback]
  simp [hvalue]

theorem hasShort_eq (h : inv.GivesOnlyN front back) (c : Char) : inv.hasShort c = (c == 'n') := by
  have hchars : inv.shortChars = ['n'] := by
    rw [shortChars, h.flags_eq]
    rfl
  rw [hasShort, hchars, List.contains_cons, List.contains_nil, Bool.or_false]

theorem optionValue?_n (h : inv.GivesOnlyN front back) :
    inv.optionValue? ['-', 'n'] = back.head?.map (·.value) := by
  obtain ⟨flag, hflag, hvalue, hwords, hfront, -⟩ := h
  rw [optionValue?, hwords, optionIn?_append_of_operands _ hfront, optionIn?]
  simp [hflag, hvalue]

theorem optionValue?_e (h : inv.GivesOnlyN front back) : inv.optionValue? ['-', 'e'] = none := by
  obtain ⟨flag, hflag, hvalue, hwords, hfront, hback⟩ := h
  have hnone := optionIn?_append_of_operands ['-', 'e'] hback []
  rw [List.append_nil] at hnone
  rw [optionValue?, hwords, optionIn?_append_of_operands _ hfront, optionIn?, hflag, hvalue, hnone]
  rfl

/-- All operands are positional, apart from a value of `-n`. -/
theorem positionals_eq (h : inv.GivesOnlyN front back) (valued : List Text) :
    inv.positionals valued = front.map (·.value) ++
      (if valued.contains ['-', 'n'] then back.tail else back).map (·.value) := by
  obtain ⟨flag, hflag, hvalue, hwords, hfront, hback⟩ := h
  have hoperands {ws : List TaggedToken} (hws : ∀ w ∈ ws, w.isFlag = false) :
      positionalsIn valued false ws = ws.map (·.value) := by
    have happend := positionalsIn_append_of_operands valued hws []
    rwa [List.append_nil, positionalsIn, List.append_nil] at happend
  rw [positionals, hwords, positionalsIn_append_of_operands _ hfront, positionalsIn, if_pos hflag,
    hvalue]
  cases valued.contains ['-', 'n'] with
  | false => rw [hoperands hback, if_neg (by simp)]
  | true =>
    cases back with
    | nil => rfl
    | cons w back =>
      have htail : ∀ v ∈ back, v.isFlag = false := fun v hv => hback v (List.mem_cons_of_mem _ hv)
      rw [positionalsIn, hoperands htail, if_pos rfl, List.tail_cons]

end Invocation.GivesOnlyN

namespace LineCommand

variable {c : LineCommand} {inv : Invocation} {files : List Text}

theorem lineCount?_of_writtenIn (h : c.WrittenIn inv files) (hspecial : c.special ≠ .sed) :
    lineCount? inv = some c.argument ∧ inv.positionals ["-n", "-c"] = files ∧
      inv.hasShort 'f' = false ∧ inv.hasShort 'F' = false := by
  obtain ⟨-, front, back, word, hn, hword, hplaces⟩ := h
  rw [if_neg hspecial] at hplaces
  obtain ⟨behind, hback, rfl⟩ := hplaces
  obtain ⟨w, ws, rfl, rfl, rfl⟩ := List.map_eq_cons_iff.mp hback
  obtain hvalue := eq_argument_of_spelledBy hword hspecial
  have hcount : inv.optionValue? "-n" = some c.argument := hvalue ▸ hn.optionValue?_n
  refine ⟨?_, hn.positionals_eq ["-n", "-c"], hn.hasShort_eq 'f', hn.hasShort_eq 'F'⟩
  rw [lineCount?, hcount]
  rfl

theorem scriptAndFiles?_of_writtenIn (h : c.WrittenIn inv files) (hspecial : c.special = .sed) :
    (∃ word, scriptAndFiles? inv = some (word, files) ∧ Text.unquote word = c.argument) ∧
      inv.hasShort 'n' = true ∧ inv.hasShort 'i' = false := by
  obtain ⟨-, front, back, word, hn, hword, hplaces⟩ := h
  rw [if_pos hspecial] at hplaces
  have hscript : inv.optionValue? "-e" = none := hn.optionValue?_e
  have hpositionals : inv.positionals ["-e"] = word :: files :=
    (hn.positionals_eq ["-e"]).trans (List.map_append.symm.trans hplaces)
  refine ⟨⟨word, ?_, unquote_of_spelledBy hword⟩, hn.hasShort_eq 'n', hn.hasShort_eq 'i'⟩
  rw [scriptAndFiles?, hscript, hpositionals]

theorem convertTail?_of_writtenIn (h : c.WrittenIn inv files) (hspecial : c.special = .tail) :
    convertTail? inv = c.selection?.map fun s => inv.finish (withInput files s.text) := by
  obtain ⟨hcount, hfiles, hf, hF⟩ := lineCount?_of_writtenIn h (by rw [hspecial]; decide)
  rw [← tailSelection?_argument hspecial]
  simp only [convertTail?, hcount, hfiles, hf, hF, Bool.or_false, Bool.false_eq_true, if_false,
    Option.bind_eq_bind, Option.bind_some]
  cases tailSelection? c.argument <;> rfl

theorem convertSed?_of_writtenIn (h : c.WrittenIn inv files) (hspecial : c.special = .sed) :
    convertSed? inv = c.selection?.map fun s => inv.finish (withInput files s.text) := by
  obtain ⟨⟨word, hread, hword⟩, hn, hi⟩ := scriptAndFiles?_of_writtenIn h hspecial
  rw [← printSelection?_argument hspecial]
  simp only [convertSed?, hread, hword, scriptStage?, hn, hi, if_true, Bool.false_eq_true,
    if_false, Option.bind_eq_bind, Option.bind_some]
  cases printSelection? c.argument <;> rfl

/-- The rule of the command makes its selection of it, unless it is refused. -/
theorem counterpart?_of_writtenIn (h : c.WrittenIn inv files) (target : Target) (nested : Nested) :
    c.special.counterpart? target nested inv =
      c.selection?.map fun s => inv.finish (withInput files s.text) := by
  cases c with
  | head n =>
    obtain ⟨hcount, hfiles, -⟩ := lineCount?_of_writtenIn h (by simp [special])
    have hselection : (Text.toNat64? n.digits).map .first = (head n).selection? := count_argument n
    rw [← hselection]
    show convertHead? inv = _
    simp only [convertHead?, hcount, hfiles, argument, Option.bind_eq_bind, Option.bind_some]
    cases Text.toNat64? n.digits <;> rfl
  | tail n | tailFrom k => exact convertTail?_of_writtenIn h rfl
  | printLine n | printRange m n | printFrom m | printLast => exact convertSed?_of_writtenIn h rfl

end LineCommand

/-! ## Checked subtraction -/

/-- The lines between two addresses, where taking one from a number fails at zero. -/
def checkedRange? (start stop : Text) : Option (Option Selection) :=
  if stop = ['$'] then some ((Text.toIndex64? start).map .skip)
  else match Text.toNat64? start, Text.toNat64? stop with
    | some m, some n =>
      if m = 0 ∨ n < m then some none
      else (pred? m).bind fun i => (pred? n).map fun j => some (.range i j)
    | _, _ => some none

/-- What a script prints, where taking one from a number fails at zero. -/
def checkedPrint? (script : Text) : Option (Option Selection) :=
  match Text.dropBack? (Text.trim script) "p" with
  | none => some none
  | some addresses =>
    match Text.splitOnce ',' addresses with
    | none => some (if isAddress addresses then oneLine? addresses else none)
    | some (start, stop) =>
      if isAddress start && isAddress stop then checkedRange? start stop else some none

theorem checkedRange?_eq (start stop : Text) :
    checkedRange? start stop = some (lineRange? start stop) := by
  unfold checkedRange?
  by_cases hstop : stop = ['$']
  · rw [if_pos hstop, hstop, lineRange?_dollar]
  rw [if_neg hstop, lineRange?_of_ne start hstop, toIndex64?_eq, toIndex64?_eq]
  rcases Text.toNat64? start with _ | _ | i
  · rfl
  · cases Text.toNat64? stop <;> rfl
  rcases Text.toNat64? stop with _ | _ | j
  · rfl
  · rfl
  simp only [Option.bind_some, pred?, Option.map_some]
  by_cases hlt : j < i
  · rw [if_pos (by omega), if_pos hlt]
  · rw [if_neg (by omega), if_neg hlt]

/-- No script takes one from zero. -/
theorem checkedPrint?_eq (script : Text) :
    checkedPrint? script = some (printSelection? script) := by
  unfold checkedPrint? printSelection?
  cases Text.dropBack? (Text.trim script) "p" with
  | none => rfl
  | some addresses =>
    cases hsplit : Text.splitOnce ',' addresses with
    | none => simp only [hsplit]
    | some parts =>
      simp only [hsplit, checkedRange?_eq]
      split <;> rfl

section

variable {r : StageConverter} {depth : Nat} {stage : Text} {inv : Invocation} {c : LineCommand}
  {files : List Text}

theorem convertStageAt_of_writtenIn (hneeds : r.target.needsConversion = true)
    (hgroup : isGrouped stage = false) (hheredoc : ∀ t ∈ tagStage stage, t.token.isHeredoc = false)
    (hinv : Invocation.ofTagged? stage (tagStage stage) = some inv) (h : c.WrittenIn inv files) :
    r.convertStageAt depth stage =
      if c.Refused then stage else inv.finish (withInput files c.selection.text) := by
  have hrules : ∀ s ∈ [Special.head, .tail, .sed], Special.ofName? s.name = some s ∧
      s.scope = .whole ∧ s.acceptsFlag ['-', 'n'] = true := by decide +kernel
  obtain ⟨hspecial, hscope, haccepts⟩ :=
    hrules c.special (by cases c <;> simp [LineCommand.special])
  have hflags : (c.special.unsupportedFlags inv).isEmpty = true := by
    obtain ⟨-, front, back, -, hn, -⟩ := h
    rw [Special.unsupportedFlags, Special.ownFlags, hscope]
    simp [hn.flags_eq, haccepts]
  rw [StageConverter.convertStageAt_eq,
    StageConverter.convertStage?_of_ofTagged? hneeds hgroup hheredoc hinv,
    StageConverter.convertInvocation?_of_special (h.1 ▸ hspecial) hflags,
    LineCommand.counterpart?_of_writtenIn h, LineCommand.selection?]
  split <;> rfl

end

/-- **Lines by number.** For every `head -n N`, `tail -n N`, `tail -n +K` and `sed -n` with a script
`Np`, `M,Np`, `M,$p` or `$p`, on any files and with any redirections: where a number does not fit in
64 bits, a line number is zero or a range ends in front of its start, the stage stays as it is.
Otherwise its counterpart keeps of every input the lines that the command prints. No script at all
takes one from zero. -/
theorem selected_lines_printed (r : StageConverter) (depth : Nat) {stage : Text} {inv : Invocation}
    (c : LineCommand) {files : List Text} (hneeds : r.target.needsConversion = true)
    (hgroup : isGrouped stage = false) (hheredoc : ∀ t ∈ tagStage stage, t.token.isHeredoc = false)
    (hinv : Invocation.ofTagged? stage (tagStage stage) = some inv) (h : c.WrittenIn inv files) :
    (c.Refused → r.convertStageAt depth stage = stage) ∧
      (¬c.Refused → ∃ body selection,
        r.convertStageAt depth stage = inv.finish (withInput files body) ∧
          readSelection? body = some selection ∧
          ∀ lines, selection.keep lines = c.printed lines) ∧
      ∀ script, checkedPrint? script = some (printSelection? script) := by
  have hstage : r.convertStageAt depth stage = _ :=
    convertStageAt_of_writtenIn hneeds hgroup hheredoc hinv h
  refine ⟨fun hrefused => ?_, fun hnot => ?_, checkedPrint?_eq⟩
  · rw [hstage, if_pos hrefused]
  · rw [hstage, if_neg hnot]
    exact ⟨_, _, rfl, readSelection?_text _, LineCommand.keep_selection hnot⟩

/-- A range of lines on two files, with the output redirected. -/
def rangeInvocation : Invocation :=
  ⟨"sed", "sed -n \"2,4p\" notes 'my log' > out",
    [⟨⟨"-n", 4, 6, none⟩, .flag⟩, ⟨⟨"\"2,4p\"", 7, 13, some .double⟩, .argument⟩,
      ⟨⟨"notes", 14, 19, none⟩, .argument⟩, ⟨⟨"'my log'", 20, 28, some .single⟩, .argument⟩],
    [">", "out"]⟩

/-- A count that is too large by one, behind the file. -/
def countInvocation : Invocation :=
  ⟨"head", "head log -n 18446744073709551616",
    [⟨⟨"log", 5, 8, none⟩, .argument⟩, ⟨⟨"-n", 9, 11, none⟩, .flag⟩,
      ⟨⟨"18446744073709551616", 12, 32, none⟩, .argument⟩], []⟩

/-- The range goes beyond the end of three lines; the stage with the count stays as it is. -/
theorem selected_lines_beyond_end :
    let r : StageConverter := ⟨.builtin, .powerShell (some 7)⟩
    let c : LineCommand := .printRange (.ofNat 2) (.ofNat 4)
    let d : LineCommand := .head (.ofNat 18446744073709551616)
    (∃ body selection, r.convertStageAt 8 rangeInvocation.stage =
        rangeInvocation.finish (withInput ["notes", "'my log'"] body) ∧
      readSelection? body = some selection ∧
      selection.keep ["a", "b", "c"] = c.printed ["a", "b", "c"]) ∧
      r.convertStageAt 8 rangeInvocation.stage =
        "Get-Content notes, 'my log' | Select-Object -Index (1..3) > out".toList ∧
      c.printed ["a", "b", "c"] = ["b".toList, "c".toList] ∧
      d.Refused ∧ r.convertStageAt 8 countInvocation.stage = countInvocation.stage := by
  intro r c d
  obtain ⟨hgroup, hheredoc, hinv, hdollar, hc, hlines⟩ : isGrouped rangeInvocation.stage = false ∧
      (∀ t ∈ tagStage rangeInvocation.stage, t.token.isHeredoc = false) ∧
      Invocation.ofTagged? rangeInvocation.stage (tagStage rangeInvocation.stage) =
        some rangeInvocation ∧ '$' ∉ c.argument ∧ ¬c.Refused ∧
      c.printed ["a", "b", "c"] = ["b".toList, "c".toList] := by decide +kernel
  obtain ⟨hgroup', hheredoc', hinv', hdollar', hd⟩ : isGrouped countInvocation.stage = false ∧
      (∀ t ∈ tagStage countInvocation.stage, t.token.isHeredoc = false) ∧
      Invocation.ofTagged? countInvocation.stage (tagStage countInvocation.stage) =
        some countInvocation ∧ '$' ∉ d.argument ∧ d.Refused := by decide +kernel
  have hwritten : c.WrittenIn rangeInvocation ["notes", "'my log'"] :=
    ⟨rfl, [], rangeInvocation.words.tail, _, ⟨_, rfl, rfl, rfl, by simp, by decide +kernel⟩,
      .inr (.inr ⟨rfl, rfl, hdollar⟩), rfl⟩
  have hwritten' : d.WrittenIn countInvocation ["log"] :=
    ⟨rfl, countInvocation.words.take 1, countInvocation.words.drop 2, _,
      ⟨_, rfl, rfl, rfl, by decide +kernel, by decide +kernel⟩, .inl ⟨rfl, hdollar'⟩,
      [], rfl, rfl⟩
  obtain ⟨body, selection, hstage, hread, hkeep⟩ :=
    (selected_lines_printed r 8 c rfl hgroup hheredoc hinv hwritten).2.1 hc
  exact ⟨⟨body, selection, hstage, hread, hkeep _⟩, by decide +kernel, hlines, hd,
    (selected_lines_printed r 8 d rfl hgroup' hheredoc' hinv' hwritten').1 hd⟩

end CrossShell
