import CrossShell.Text

/-!
# How well a pattern fits a text

The characters of a pattern are looked for in a text, in order and with gaps. The score of the best
fit grows with each character found, and with characters found next to each other or at the start
of a word; gaps cost.

The best fit is found column by column, one row for each character of the pattern. A row holds, for
each end position, the best score of a fit that ends there (`matched`), of one that ended before it
(`passed`), and the bonus of the run of neighbours that it belongs to (`run`). Two rows take turns;
what a row does not write it keeps from two characters before.

* `fitScore?`: the score, or nothing if the pattern does not occur.
-/
namespace CrossShell

/-- The kinds of characters that decide where words start. -/
inductive CharKind where
  /-- What stands before a text. -/
  | start
  /-- A separator such as a blank, a slash or a bracket. -/
  | hard
  /-- Other punctuation. -/
  | soft
  /-- A digit. -/
  | digit
  /-- An upper case letter. -/
  | upper
  /-- Anything else. -/
  | lower
  deriving DecidableEq, Repr

/-- The kind of a character. -/
def CharKind.of (c : Char) : CharKind :=
  if " /\\|()[]\x7b\x7d".toList.contains c then hard
  else if "!\"#$%&'*+,-.:;<=>?@^_`~".toList.contains c then soft
  else if c.isDigit then digit
  else if c.isUpper then upper
  else lower

/-- The bonus of a position, from the kind before it and its own. -/
def CharKind.bonus : CharKind → CharKind → Int
  | start, _ | hard, _ => 8
  | soft, _ => 7
  | lower, upper | digit, upper => 6
  | _, _ => 0

/-- The bonuses of the positions of a text, behind a character of the given kind. -/
def bonusesFrom : CharKind → Text → List Int
  | _, [] => []
  | before, c :: cs => before.bonus (.of c) :: bonusesFrom (.of c) cs

/-- The bonuses of the columns of a text. Column 0 has none, and the first character counts
twice. -/
def columnBonuses (t : Text) : Array Int :=
  match bonusesFrom .start t with
  | [] => #[0]
  | first :: rest => (0 :: 2 * first :: rest).toArray

/-- Whether two characters are the same, case aside if `exact` does not hold. -/
def sameChar (exact : Bool) (a b : Char) : Bool := if exact then a == b else a.toLower == b.toLower

/-- The places at which the characters of a pattern are found first, each behind the one before. -/
def firstPlaces? (exact : Bool) : (place : Nat) → Text → Text → Option (List Nat)
  | _, _, [] => some []
  | _, [], _ :: _ => none
  | place, c :: cs, p :: ps =>
    if sameChar exact c p then (firstPlaces? exact (place + 1) cs ps).map (place :: ·)
    else firstPlaces? exact (place + 1) cs (p :: ps)

/-- The score of a place at which nothing can end. -/
def noScore : Int := -32768

/-- The scores of one row. -/
structure ScoreRow where
  /-- Best score of a fit that ends at a column. -/
  matched : Array Int
  /-- Best score of a fit that ended before a column. -/
  passed : Array Int
  /-- Bonus of the run of neighbours at a column. -/
  run : Array Int
  deriving DecidableEq, Repr

/-- A row on which nothing is written yet. -/
def ScoreRow.blank (columns : Nat) (passed : Int) : ScoreRow :=
  ⟨.replicate columns noScore, .replicate columns passed, .replicate columns 0⟩

/-- Writes one column of a row: the character `c` of the text at place `j`, against the character
`p` of the pattern. `above` is the row of the character before it. -/
def ScoreRow.write (exact : Bool) (bonuses : Array Int) (above : ScoreRow) (p : Char)
    (row : ScoreRow) (c : Char) (j : Nat) : ScoreRow :=
  let row :=
    if sameChar exact c p then
      let bonus := bonuses.getD (j + 1) 0
      let run := max (row.run.getD j 0) (max bonus 4)
      let gain : Int := if c = p then 16 else 14
      let score := max (above.matched.getD j 0 + run) (above.passed.getD j 0 + bonus) + gain
      { row with
        matched := row.matched.setIfInBounds (j + 1) score
        run := row.run.setIfInBounds j run }
    else
      { row with
        matched := row.matched.setIfInBounds (j + 1) noScore
        run := row.run.setIfInBounds (j + 1) 0 }
  { row with
    passed := row.passed.setIfInBounds (j + 1)
      (max (row.matched.getD j 0 - 4) (row.passed.getD j 0 - 1)) }

/-- Writes a row from a place of the text to its end. -/
def ScoreRow.fill (exact : Bool) (bonuses : Array Int) (text : Text) (above row : ScoreRow)
    (p : Char) (place : Nat) : ScoreRow :=
  ((text.drop place).zipIdx place).foldl (fun row (c, j) => write exact bonuses above p row c j) row

/-- The last row of a pattern, given the places at which its characters are found first. `above` is
the row before and `row` the one to write on. -/
def lastRow (exact : Bool) (bonuses : Array Int) (text : Text) :
    (above row : ScoreRow) → List (Char × Nat) → ScoreRow
  | above, _, [] => above
  | above, row, (p, place) :: rest =>
    lastRow exact bonuses text (ScoreRow.fill exact bonuses text above row p place) above rest

/-- The greatest of some scores. -/
def bestScore? : List Int → Option Int
  | [] => none
  | s :: ss => some (ss.foldl max s)

/-- The score of the best fit of a pattern in a text. Case counts if the pattern has an upper case
letter. -/
def fitScore? (text pattern : Text) : Option Int :=
  if pattern.isEmpty then some 0
  else
    let exact := pattern.any Char.isUpper
    match firstPlaces? exact 0 text pattern with
    | none => none
    | some places =>
      let columns := text.length + 1
      let row := lastRow exact (columnBonuses text) text (.blank columns (-1))
        (.blank columns noScore) (pattern.zip places)
      bestScore? (row.matched.toList.drop (places.getLast?.getD 0))

end CrossShell
