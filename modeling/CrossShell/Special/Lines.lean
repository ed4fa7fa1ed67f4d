import CrossShell.Invocation
import CrossShell.Special.Pipeline
import CrossShell.Text.Number

/-!
# Lines of the input: `head`, `tail`, `wc`, `nl` and the pagers

* `lineCount?`: the count that `head` and `tail` are given, in any of its spellings.
* `Selection`: which lines are kept. A count `+K` keeps from line `K` on, so it skips `K - 1` lines.
-/
namespace CrossShell

/-- The digits of a flag `-5`. -/
def numberFlag? (flag : Text) : Option Text :=
  match flag with
  | '-' :: digits => if !digits.isEmpty && digits.all Char.isDigit then some digits else none
  | _ => none

/-- The count from `-n N`, `-nN`, `--lines=N`, `-c N`, `-cN` or `-N`, as written. -/
def lineCount? (inv : Invocation) : Option Text :=
  (inv.optionValue? "-n").or <|
    (inv.optionValue? "--lines").or <|
      (inv.optionValue? "-c").or (inv.flags.findSome? numberFlag?)

/-- Which lines are kept. -/
inductive Selection where
  /-- The first lines. -/
  | first (count : Nat)
  /-- The last lines. -/
  | last (count : Nat)
  /-- All but the first lines. -/
  | skip (count : Nat)
  /-- The line with this index, from 0. -/
  | index (i : Nat)
  /-- The lines between two indices, from 0 and both included. -/
  | range (i j : Nat)
  deriving DecidableEq, Repr

/-- The stage that keeps the lines. -/
def Selection.text : Selection → Text
  | first n => "Select-Object -First " ++ Text.ofNat n
  | last n => "Select-Object -Last " ++ Text.ofNat n
  | skip n => "Select-Object -Skip " ++ Text.ofNat n
  | index i => "Select-Object -Index " ++ Text.ofNat i
  | range i j => "Select-Object -Index (" ++ Text.ofNat i ++ ".." ++ Text.ofNat j ++ ")"

/-- The lines that a count of `tail` keeps. -/
def tailSelection? (count : Text) : Option Selection :=
  match Text.dropFront? count "+" with
  | some start => (Text.toNat64? start).map fun n => .skip (n - 1)
  | none => (Text.toNat64? count).map .last

/-- `head`: the first lines. Without a count there is no counterpart. -/
def convertHead? (inv : Invocation) : Option Text := do
  let count ← Text.toNat64? (← lineCount? inv)
  return inv.finish (withInput (inv.positionals ["-n", "-c"]) (Selection.first count).text)

/-- A file that is followed, from the lines that a count of `tail` keeps. -/
def followFile? (file : Text) (count : Option Text) : Option Text :=
  match count with
  | none => some ("Get-Content " ++ file ++ " -Wait")
  | some count => (tailSelection? count).map fun
    | .last n => "Get-Content " ++ file ++ " -Wait -Tail " ++ Text.ofNat n
    | selection => "Get-Content " ++ file ++ " -Wait | " ++ selection.text

/-- `tail`: the last lines, or with `-f` one file as it grows. -/
def convertTail? (inv : Invocation) : Option Text :=
  let files := inv.positionals ["-n", "-c"]
  if inv.hasShort 'f' || inv.hasShort 'F' then
    match files with
    | [file] => (followFile? file (lineCount? inv)).map inv.finish
    | _ => none
  else do
    let selection ← tailSelection? (← lineCount? inv)
    return inv.finish (withInput files selection.text)

/-- A thing that `wc` counts: the switch that asks for it and the property that holds it. -/
structure Measure where
  /-- The switch. -/
  switch : Text
  /-- The property. -/
  property : Text
  deriving DecidableEq, Repr

/-- What `wc` counts: lines, words, characters, in this order. -/
def measures (inv : Invocation) : List Measure :=
  (if inv.hasShort 'l' then [⟨"-Line", "Lines"⟩] else []) ++
    (if inv.hasShort 'w' then [⟨"-Word", "Words"⟩] else []) ++
      (if inv.hasShort 'c' || inv.hasShort 'm' then [⟨"-Character", "Characters"⟩] else [])

/-- `wc`: counts. A single count is given as a plain number. -/
def convertWc (inv : Invocation) : Text :=
  let body : Text := match measures inv with
    | [] => "Measure-Object -Line -Word -Character"
    | [measure] =>
      "Measure-Object " ++ measure.switch ++ " | Select-Object -ExpandProperty " ++
        measure.property
    | many => "Measure-Object " ++ Text.join " " (many.map (·.switch))
  inv.finish (withInput (inv.positionals []) body)

/-- `nl`: numbered lines. -/
def convertNl (inv : Invocation) : Text :=
  inv.finish (withInput (inv.positionals []) <|
    "ForEach-Object -Begin " ++ scriptBlock "$n = 0" ++ " -Process " ++
      scriptBlock "$n++; \"\x7b0,6\x7d`t\x7b1\x7d\" -f $n, $_")

/-- `less` and `more`: paging. -/
def convertPager (inv : Invocation) : Text :=
  inv.finish (withInput (inv.positionals []) "Out-Host -Paging")

end CrossShell
