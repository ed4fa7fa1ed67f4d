import CrossShell.Text.Decimal

/-!
# Numbers of 53 significant bits

Durations are reckoned with 53 significant bits: each result is rounded to the nearest such
number, a tie to the even one.

* `Binary.round`: the nearest number of 53 bits.
* `Binary.ofDecimal`: the nearest one to a decimal fraction.
* `Binary.toNat`: the nearest natural number, a tie upwards.
-/
namespace CrossShell

/-- The number `mantissa · 2 ^ exponent`. -/
structure Binary where
  /-- The significant bits. -/
  mantissa : Nat
  /-- The power of two. -/
  exponent : Int
  deriving DecidableEq, Repr

namespace Binary

/-- The quotient by a power of two, rounded to the nearest number, a tie to the even one. -/
def shiftRound (n shift : Nat) : Nat :=
  let unit := Nat.pow 2 shift
  let q := n / unit
  let r := n % unit
  if 2 * r < unit ∨ (2 * r = unit ∧ q % 2 = 0) then q else q + 1

/-- The nearest number of 53 significant bits. -/
def round (b : Binary) : Binary :=
  if b.mantissa < Nat.pow 2 53 then b
  else
    let shift := b.mantissa.log2 - 52
    ⟨shiftRound b.mantissa shift, b.exponent + shift⟩

/-- The product with a natural number, rounded. -/
def scale (b : Binary) (n : Nat) : Binary := round ⟨b.mantissa * n, b.exponent⟩

/-- The quotient of two natural numbers, rounded. It is reckoned with more bits than are kept, and
its last bit tells whether anything was cut off behind it. -/
def ofQuotient (n d : Nat) : Binary :=
  let shift := 64 + d.log2
  let scaled := n * Nat.pow 2 shift
  round ⟨2 * (scaled / d) + (if scaled % d = 0 then 0 else 1), -(shift + 1 : Nat)⟩

/-- The magnitude of a decimal fraction, rounded. -/
def ofDecimal (d : Decimal) : Binary :=
  match d.exponent with
  | .ofNat e => round ⟨d.digits * Nat.pow 10 e, 0⟩
  | .negSucc e => ofQuotient d.digits (Nat.pow 10 (e + 1))

/-- The nearest natural number, a tie upwards. -/
def toNat (b : Binary) : Nat :=
  match b.exponent with
  | .ofNat e => b.mantissa * Nat.pow 2 e
  | .negSucc e => (b.mantissa + Nat.pow 2 e) / Nat.pow 2 (e + 1)

end Binary

end CrossShell
