import CrossShell.Text.Blank
import CrossShell.Text.Number
import CrossShell.Text.Printable

/-!
# Version probes

An executable is asked for its major version and has a limited time to answer.

* `parseVersion`: the version that its output states.
* `probe`: the version, or why it stays unknown.
-/
namespace CrossShell

/-- Why the version of an executable stays unknown. -/
inductive ProbeError where
  /-- There is no such executable. -/
  | notFound (exe : Text)
  /-- It did not finish in time. -/
  | timeout (exe : Text) (millis : Nat)
  /-- It printed a line that is no version. -/
  | malformed (line : Text)
  deriving DecidableEq, Repr

/-- The three decimals of a second, without trailing zeros. -/
def thousandths (millis : Nat) : Text :=
  let digits := [millis / 100, millis / 10 % 10, millis % 10]
  ((digits.reverse.dropWhile (· == 0)).reverse).flatMap Text.ofNat

/-- A duration in the largest unit that keeps it at least one. -/
def durationText (millis : Nat) : Text :=
  if millis = 0 then "0ns"
  else if millis < 1000 then Text.ofNat millis ++ "ms"
  else
    let fraction := thousandths (millis % 1000)
    Text.ofNat (millis / 1000) ++ (if fraction.isEmpty then [] else '.' :: fraction) ++ "s"

namespace ProbeError

/-- The wording of a failed probe. -/
def message : ProbeError → Text
  | notFound exe => "\x60" ++ exe ++ "\x60 not found on PATH"
  | timeout exe millis => "\x60" ++ exe ++ "\x60 did not answer within " ++ durationText millis
  | malformed line => "unexpected version output: " ++ Text.quoted line

end ProbeError

/-- The first line with something on it, without blanks around; empty if there is none. -/
def firstLine (output : Text) : Text :=
  (((Text.splitOn '\n' output).map Text.trim).find? (!·.isEmpty)).getD []

/-- The major version in the first line of an output that is not blank: a number of 32 bits. -/
def parseVersion (output : Text) : Except ProbeError Nat :=
  match Text.toNat32? (firstLine output) with
  | some version => .ok version
  | none => .error (.malformed (firstLine output))

/-- What came of running an executable. -/
inductive ProbeOutcome where
  /-- It does not exist. -/
  | missing
  /-- The time was up before it finished. -/
  | silent
  /-- It printed this text and finished. -/
  | printed (output : Text)
  deriving DecidableEq, Repr

/-- The version of an executable that had `millis` milliseconds to answer. -/
def probe (exe : Text) (millis : Nat) : ProbeOutcome → Except ProbeError Nat
  | .missing => .error (.notFound exe)
  | .silent => .error (.timeout exe millis)
  | .printed output => parseVersion output

/-- A stated version is a number of 32 bits. -/
theorem parseVersion_lt {output : Text} {version : Nat} (h : parseVersion output = .ok version) :
    version < Nat.pow 2 32 := by
  unfold parseVersion at h
  split at h
  · next v hv =>
    cases h
    exact Text.toNatBelow?_lt hv
  · cases h

end CrossShell
