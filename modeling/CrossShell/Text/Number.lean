import CrossShell.Text

/-!
# Numbers written in decimal

* `digitsValue`: the value of a run of ASCII digits.
* `toNatBelow?`: an unsigned number that fits in a word of a given size, written as at most one
  `+` and then ASCII digits, at least one.
-/
namespace CrossShell.Text

/-- The value of a run of ASCII digits, read from the left onto a start value. -/
def digitsValue (start : Nat) (digits : Text) : Nat :=
  digits.foldl (fun n d => 10 * n + (d.toNat - '0'.toNat)) start

/-- The digits after at most one plus sign. -/
def unsignedDigits (t : Text) : Text :=
  match t with
  | '+' :: rest => rest
  | t => t

/-- The number a text writes, if it is below `limit`. -/
def toNatBelow? (limit : Nat) (t : Text) : Option Nat :=
  let digits := unsignedDigits t
  if digits.isEmpty || !digits.all Char.isDigit then none
  else
    let n := digitsValue 0 digits
    if n < limit then some n else none

/-- Numbers of 32 bits. -/
def toNat32? (t : Text) : Option Nat := toNatBelow? (Nat.pow 2 32) t

/-- Numbers of 64 bits. -/
def toNat64? (t : Text) : Option Nat := toNatBelow? (Nat.pow 2 64) t

/-- A number of 64 bits that counts from 1, as an index from 0. -/
def toIndex64? (t : Text) : Option Nat :=
  match toNat64? t with
  | some (n + 1) => some n
  | _ => none

theorem toNatBelow?_lt {limit n : Nat} {t : Text} (h : toNatBelow? limit t = some n) :
    n < limit := by
  simp only [toNatBelow?] at h
  split at h
  · cases h
  · split at h
    · cases h
      assumption
    · cases h

end CrossShell.Text
