import CrossShell.Text.Decimal
import CrossShell.Yaml.Scalar

/-!
# What a plain scalar reads as

Without quotes, some texts read as the null value, as a truth value or as a number.

* `isNull`, `toBool?`, `isNumber`: which ones.
* `readsAsText`: all others. A number with a leading zero counts as text, but is not written plain.
-/
namespace CrossShell.Yaml

/-- Whether a plain scalar is the null value. -/
def isNull (t : Text) : Bool :=
  (["null", "Null", "NULL", "~"] : List Text).contains t

/-- The truth value of a plain scalar. -/
def toBool? (t : Text) : Option Bool :=
  if (["true", "True", "TRUE"] : List Text).contains t then some true
  else if (["false", "False", "FALSE"] : List Text).contains t then some false
  else none

/-- Without one leading plus or minus. -/
def withoutSign (t : Text) : Text := (Text.splitSign t).2

/-- Whether a text is digits with a leading zero, and so a code and not a number. -/
def isZeroPadded (t : Text) : Bool :=
  let digits := withoutSign t
  1 < digits.length && digits.head? == some '0' && digits.all Char.isDigit

/-- The value of a digit in bases up to 16. -/
def digitBelow? (base : Nat) (c : Char) : Option Nat := (hexDigit? c).filter (· < base)

/-- The number that a text of digits writes in a base. -/
def digitsIn? (base : Nat) (t : Text) : Option Nat :=
  if t.isEmpty then none
  else (t.mapM (digitBelow? base)).map fun digits => digits.foldl (base * · + ·) 0

/-- The number behind one of the marks `0x`, `0o` and `0b`. -/
def markedNumber? (t : Text) : Option Nat :=
  match t with
  | '0' :: 'x' :: digits => digitsIn? 16 digits
  | '0' :: 'o' :: digits => digitsIn? 8 digits
  | '0' :: 'b' :: digits => digitsIn? 2 digits
  | _ => none

/-- Signed numbers of 128 bits reach down to the negative of one less than this limit; unsigned ones
are below it. -/
def wordLimit (negative : Bool) : Nat := if negative then Nat.pow 2 127 + 1 else Nat.pow 2 128

/-- Whether a text is a whole number of 128 bits behind a mark. -/
def isMarkedNumber (t : Text) : Bool :=
  let (negative, unsigned) := Text.splitSign t
  (markedNumber? unsigned).any (· < wordLimit negative)

/-- The least number that is too large to be a finite one of 64 bits. -/
def infinite : Nat := Nat.pow 2 1024 - Nat.pow 2 970

/-- Whether a decimal is below `infinite`. How many digits stand in front of its point settles it
unless they are 309. -/
def isFinite (d : Decimal) : Bool :=
  let whole : Int := (Nat.toDigits 10 d.digits).length + d.exponent
  if d.digits = 0 ∨ whole < 309 then true
  else if 309 < whole then false
  else d.digits * Nat.pow 10 d.exponent.toNat < infinite * Nat.pow 10 (-d.exponent).toNat

/-- Whether a text is a name of infinity, or of no number. -/
def isSpecialNumber (t : Text) : Bool :=
  (["-.inf", "-.Inf", "-.INF", ".nan", ".NaN", ".NAN"] : List Text).contains t ||
    ([".inf", ".Inf", ".INF"] : List Text).contains (Text.unsignedDigits t)

/-- Whether a plain scalar is a number. -/
def isNumber (t : Text) : Bool :=
  isMarkedNumber t || isSpecialNumber t || (!isZeroPadded t && (Text.toDecimal? t).any isFinite)

/-- Whether a text, written plain, reads as that text and as nothing else. -/
def readsAsText (t : Text) : Bool :=
  !t.isEmpty && !isNull t && (toBool? t).isNone && !isNumber t && !isZeroPadded t

end CrossShell.Yaml
