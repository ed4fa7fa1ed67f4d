import CrossShell.Text

/-!
# Target shells

What is known about the shell that a line is written for: its kind, its major version if known,
and whether it has `&&` and `||` of its own. Every decision about a target reads these facts.
-/
namespace CrossShell

/-- The kinds of target shells. -/
inductive ShellKind where
  /-- A POSIX shell: lines stay as they are. -/
  | posix
  /-- The old console, which hands converted lines to PowerShell. -/
  | console
  /-- PowerShell. -/
  | powerShell
  deriving DecidableEq, Repr

/-- The facts about a target shell. -/
structure Target where
  /-- Its kind. -/
  kind : ShellKind
  /-- Its major version, if known. -/
  version : Option Nat
  /-- Whether it has `&&` and `||`. -/
  nativeConnectors : Bool
  deriving DecidableEq, Repr

namespace Target

/-- A POSIX shell. -/
def posix : Target := ⟨.posix, none, true⟩

/-- The console. -/
def console : Target := ⟨.console, none, false⟩

/-- PowerShell. It has connectors from version 7 on; an unknown version counts as older. -/
def powerShell (version : Option Nat) : Target := ⟨.powerShell, version, version.any (7 ≤ ·)⟩

instance : Inhabited Target := ⟨posix⟩

/-- Whether lines are converted for this target at all. -/
def needsConversion (t : Target) : Bool := t.kind != .posix

/-- Whether the target is PowerShell of a known version, not older than `major`. -/
def atLeast (t : Target) (major : Nat) : Bool :=
  t.kind == .powerShell && t.version.any (major ≤ ·)

/-- The program that runs PowerShell lines for this target. -/
def executable (t : Target) : Text := if t.atLeast 6 then "pwsh" else "powershell"

/-- Whether `Select-String -Raw` exists. -/
def hasRawSelectString (t : Target) : Bool := t.atLeast 7

/-- Whether `Get-Uptime` exists. -/
def hasGetUptime (t : Target) : Bool := t.atLeast 6

end Target

end CrossShell
