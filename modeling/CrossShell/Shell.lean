import CrossShell.Target
import CrossShell.Text.Number

/-!
# Running a line

* `ShellCall.forLine`: the program and the arguments that run a line in a target shell.
* `ShellCall.run`: the exit code of a line, given what starting programs does on a machine.
* `Exit.ofLine`: what a POSIX shell does with the simplest lines.
-/
namespace CrossShell

/-- A program and its arguments. -/
structure ShellCall where
  /-- The program. -/
  program : Text
  /-- Its arguments. -/
  arguments : List Text
  deriving DecidableEq, Repr

/-- How a program ended. -/
inductive Exit where
  /-- With this code. -/
  | code (n : Nat)
  /-- Killed by a signal. -/
  | signal
  deriving DecidableEq, Repr

namespace Exit

/-- The exit code to pass on; a program killed by a signal counts as failed. -/
def toCode : Exit → Nat
  | code n => n
  | signal => 1

/-- The status that `exit` is given, which has eight bits; without one, that of success. Anything
but a number is an error of usage. -/
def statusOf : List Text → Nat
  | [] => 0
  | status :: _ => (Text.toNat64? status).elim 2 (· % 256)

/-- The arguments with which `kill` ends the shell itself. -/
def killsShell : List (List Text) := [["-9", "$$"], ["-TERM", "$$"]]

/-- How a POSIX shell ends that runs one of its own plain commands, given by its words. Any other
command is unknown to it. -/
def ofWords : List Text → Exit
  | [] => code 0
  | command :: arguments =>
    if command = "true" ∨ command = ":" then code 0
    else if command = "false" then code 1
    else if command = "exit" then code (statusOf arguments)
    else if command = "kill" ∧ killsShell.contains arguments then signal
    else code 127

/-- How a POSIX shell ends that runs a line. -/
def ofLine (line : Text) : Exit := ofWords ((Text.splitOn ' ' line).filter (!·.isEmpty))

end Exit

/-- The shell process could not be started. -/
structure SpawnError where
  /-- The program that was to be started. -/
  program : Text
  deriving DecidableEq, Repr

/-- The wording of the error. -/
def SpawnError.message (e : SpawnError) : Text :=
  "Failed to spawn shell \x60" ++ e.program ++ "\x60"

namespace ShellCall

/-- How a line is handed to a target shell. A POSIX line goes to the user's shell, whose value is
`userShell`, or to `/bin/sh`; a console line already starts PowerShell by itself. -/
def forLine (userShell : Option Text) (target : Target) (line : Text) : ShellCall :=
  match target.kind with
  | .posix => ⟨userShell.getD "/bin/sh", ["-c", line]⟩
  | .powerShell => ⟨target.executable, ["-NoProfile", "-Command", line]⟩
  | .console => ⟨"cmd", ["/C", line]⟩

/-- The exit code of a call, where `start` tells how a program ends if it can be started. -/
def run (start : ShellCall → Option Exit) (call : ShellCall) : Except SpawnError Nat :=
  match start call with
  | some exit => .ok exit.toCode
  | none => .error ⟨call.program⟩

end ShellCall

end CrossShell
