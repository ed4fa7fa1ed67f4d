import CrossShell.Target
import CrossShell.Text.Blank

/-!
# Choosing the target shell

A name given on the command line beats the variable `CMDX_SHELL`, which beats a name from the
settings. A name that is not recognised is passed over. Without any name the environment decides.

The answer comes with the questions that were put to the host, in order, since looking for a program
and asking it for its version take time.
-/
namespace CrossShell

/-- What the choice needs to know about the host. -/
structure Host where
  /-- The value of an environment variable. -/
  var : Text → Option Text
  /-- Whether a program is installed. -/
  locate : Text → Bool
  /-- The major version of a PowerShell executable, if it can be found out. -/
  probe : Text → Option Nat

/-- A question to the host that takes time. -/
inductive HostCall where
  /-- Whether a program is installed. -/
  | locate (exe : Text)
  /-- Which version a program has. -/
  | probe (exe : Text)
  deriving DecidableEq, Repr

namespace HostCall

/-- The call in words. -/
def text : HostCall → Text
  | locate exe => "locate " ++ exe
  | probe exe => "probe " ++ exe

end HostCall

/-- A chosen target, with the calls that led to it. -/
structure Resolution where
  /-- The target. -/
  target : Target
  /-- The calls, in order. -/
  calls : List HostCall
  deriving DecidableEq, Repr

/-- The shells that can be asked for by name. -/
inductive NamedShell where
  /-- Any POSIX shell. -/
  | posix
  /-- The console. -/
  | console
  /-- PowerShell, as this executable. -/
  | powerShell (exe : Text)
  deriving DecidableEq, Repr

namespace NamedShell

/-- The names that are recognised. -/
def names : List (Text × NamedShell) :=
  [("posix", posix), ("sh", posix), ("bash", posix), ("zsh", posix), ("dash", posix),
   ("ksh", posix), ("cmd", console), ("console", console), ("pwsh", powerShell "pwsh"),
   ("powershell", powerShell "powershell")]

/-- A name in the form in which it is looked up: without blanks around, in lower case, and without
one `.exe` at the end. -/
def normalize (name : Text) : Text :=
  let name := Text.toLower (Text.trim name)
  (Text.dropBack? name ".exe").getD name

/-- The shell that a name asks for. -/
def ofName? (name : Text) : Option NamedShell := names.lookup (normalize name)

/-- The target for a shell asked for by name. Only PowerShell is asked for its version. -/
def resolve (host : Host) : NamedShell → Resolution
  | posix => ⟨.posix, []⟩
  | console => ⟨.console, []⟩
  | powerShell exe => ⟨.powerShell (host.probe exe), [.probe exe]⟩

end NamedShell

namespace Host

/-- The same host, on which an empty variable counts as not set. -/
def ignoringEmpty (host : Host) : Host :=
  { host with var := fun key => (host.var key).filter (!·.isEmpty) }

/-- The PowerShell executable to use. -/
def powerShellName (host : Host) : Text := if host.locate "pwsh" then "pwsh" else "powershell"

/-- The target that the environment points to. A POSIX shell wins over what the console leaves in
the environment. -/
def detect (host : Host) : Resolution :=
  if (host.var "PSModulePath").isSome then
    ⟨.powerShell (host.probe host.powerShellName), [.locate "pwsh", .probe host.powerShellName]⟩
  else if (host.var "SHELL").isSome then ⟨.posix, []⟩
  else if (host.var "PROMPT").isSome && (host.var "ComSpec").isSome then ⟨.console, []⟩
  else ⟨.posix, []⟩

/-- The names that ask for a shell, the strongest first. -/
def candidates (host : Host) (explicit configured : Option Text) : List Text :=
  [explicit, host.var "CMDX_SHELL", configured].filterMap id

/-- The target for a line. -/
def resolve (host : Host) (explicit configured : Option Text) : Resolution :=
  match (host.candidates explicit configured).findSome? NamedShell.ofName? with
  | some shell => shell.resolve host
  | none => host.detect

end Host

end CrossShell
