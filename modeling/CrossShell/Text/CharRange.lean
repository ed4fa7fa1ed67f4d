/-!
# Character classes as ranges

A class of characters is a sorted list of closed ranges of code points. The tables follow version 17
of the Unicode character database.
-/
namespace CrossShell.Text

/-- Whether a character lies in one of the ranges. -/
def inRanges (ranges : List (Nat × Nat)) (c : Char) : Bool :=
  ranges.any fun range => range.1 ≤ c.toNat && c.toNat ≤ range.2

end CrossShell.Text
