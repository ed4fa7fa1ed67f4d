import CrossShell.Binary
import CrossShell.Invocation

/-!
# Pauses: `sleep`

A duration is a number and an optional unit. It is reckoned in milliseconds of 64 bits; what is
larger has no counterpart.

* `milliseconds?`: one duration.
* `convertSleep?`: the sum of durations, in seconds where it is a whole number of them.
-/
namespace CrossShell

/-- The number of a duration and the seconds of its unit: `s`, `m`, `h`, `d`, or none for
seconds. -/
def splitUnit (word : Text) : Text × Nat :=
  match word.getLast? with
  | some 's' => (word.dropLast, 1)
  | some 'm' => (word.dropLast, 60)
  | some 'h' => (word.dropLast, 3600)
  | some 'd' => (word.dropLast, 86400)
  | _ => (word, 1)

/-- The power of ten above a number, with zero counted as the least. -/
def magnitude (d : Decimal) : Int := d.exponent + (Nat.toDigits 10 d.digits).length

/-- Whether a number is so small that it counts as zero: not above half of the least positive
number that can be told from zero, `2 ^ -1074`. -/
def isNegligible (d : Decimal) : Bool :=
  d.digits == 0 || magnitude d < -400 ||
    match d.exponent with
    | .ofNat _ => false
    | .negSucc e => d.digits * Nat.pow 2 1075 ≤ Nat.pow 10 (e + 1)

/-- A duration in milliseconds. Below zero there is none, and none of `10 ^ 400` or more. -/
def milliseconds? (word : Text) : Option Nat := do
  let (number, unit) := splitUnit word
  let d ← Text.toDecimal? number
  if isNegligible d then return 0
  if d.negative ∨ 400 < magnitude d then none
  let value := Binary.ofDecimal d
  let ms := (if unit = 1 then value else value.scale unit).scale 1000
  if ms.toNat < Nat.pow 2 64 then return ms.toNat else none

/-- The sum of durations, if it fits in 64 bits. -/
def totalPause? : (total : Nat) → List Text → Option Nat
  | total, [] => some total
  | total, word :: words => do
    let ms ← milliseconds? word
    if total + ms < Nat.pow 2 64 then totalPause? (total + ms) words else none

/-- `sleep`: a pause. -/
def convertSleep? (inv : Invocation) : Option Text :=
  let durations := inv.positionals []
  if durations.isEmpty then none
  else (totalPause? 0 durations).map fun total =>
    inv.finish <|
      if total % 1000 = 0 then "Start-Sleep -Seconds " ++ Text.ofNat (total / 1000)
      else "Start-Sleep -Milliseconds " ++ Text.ofNat total

end CrossShell
