import CrossShell.Text.Number

/-!
# Decimal fractions

`toDecimal?` reads numbers such as `5`, `0.5`, `.5`, `5.` and `1.5e-3`: an optional sign, digits
with an optional point and at least one digit, and an optional power of ten.
-/
namespace CrossShell

/-- The number `± digits · 10 ^ exponent`. -/
structure Decimal where
  /-- Whether a minus sign stands in front. -/
  negative : Bool
  /-- The digits, without the point. -/
  digits : Nat
  /-- The power of ten. -/
  exponent : Int
  deriving DecidableEq, Repr

namespace Text

/-- Whether there is a minus sign, and the text behind an optional sign. -/
def splitSign : Text → Bool × Text
  | '-' :: rest => (true, rest)
  | '+' :: rest => (false, rest)
  | rest => (false, rest)

/-- The power of ten that the rest of a number writes; nothing stands for 0. -/
def powerOfTen? : Text → Option Int
  | [] => some 0
  | c :: rest =>
    if c = 'e' ∨ c = 'E' then
      let (negative, digits) := splitSign rest
      if digits.isEmpty || !digits.all Char.isDigit then none
      else some (if negative then -(digitsValue 0 digits : Int) else digitsValue 0 digits)
    else none

/-- The digits behind an optional point, and the text behind these. -/
def splitFraction : Text → Text × Text
  | '.' :: rest => (rest.takeWhile Char.isDigit, rest.dropWhile Char.isDigit)
  | rest => ([], rest)

/-- The number that a text writes. -/
def toDecimal? (t : Text) : Option Decimal :=
  let (negative, unsigned) := splitSign t
  let whole := unsigned.takeWhile Char.isDigit
  let (fraction, rest) := splitFraction (unsigned.dropWhile Char.isDigit)
  if whole.isEmpty && fraction.isEmpty then none
  else (powerOfTen? rest).map fun power =>
    ⟨negative, digitsValue 0 (whole ++ fraction), power - fraction.length⟩

end Text

end CrossShell
