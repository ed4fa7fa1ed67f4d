import CrossShell.Datum
import CrossShell.Options
import CrossShell.Settings.Disk
import CrossShell.Shell
import CrossShell.Target.Resolve

/-!
# The program

`run` says what the program prints and how it ends, given its arguments and the machine it runs on.
Everything that it learns from outside goes through a `Machine`.
-/
namespace CrossShell

/-- What there is at a path. -/
inductive FileState where
  /-- Nothing. -/
  | absent
  /-- Something that cannot be read as a text. -/
  | unreadable
  /-- A text. -/
  | text (t : Text)
  deriving DecidableEq, Repr

/-- The text of a file, if it can be read. -/
def FileState.text? : FileState → Option Text
  | text t => some t
  | _ => none

/-- What a program printed and how it ended. -/
structure Finished where
  /-- What it printed. -/
  output : Text
  /-- How it ended. -/
  exit : Exit
  deriving DecidableEq, Repr

/-- The machine that the program runs on. -/
structure Machine where
  /-- The value of an environment variable. -/
  var : Text → Option Text
  /-- The file at a path. -/
  file : Text → FileState
  /-- The settings file below the home directory. -/
  homeSettings : FileState
  /-- Whether a program is installed. -/
  locate : Text → Bool
  /-- The major version of a PowerShell executable, if it can be found out. -/
  probe : Text → Option Nat
  /-- What comes of starting a program, if it can be started. -/
  start : ShellCall → Option Finished

namespace Machine

/-- The machine as the choice of a target sees it. -/
def host (m : Machine) : Host := Host.ignoringEmpty ⟨m.var, m.locate, m.probe⟩

/-- Reads the settings, from the file that is named or from the usual place. -/
def settings (m : Machine) (path : Option Text) : Except SettingsError Settings :=
  match path with
  | some path => Settings.ofFile path (m.file path).text?
  | none =>
    match m.homeSettings with
    | .absent => .ok {}
    | file => Settings.ofFile defaultSettingsPath file.text?

/-- How a line is handed to a target shell. -/
def shellCall (m : Machine) (target : Target) (line : Text) : ShellCall :=
  .forLine (m.var "SHELL") target line

end Machine

/-- What the program prints and how it ends. -/
structure Outcome where
  /-- What it prints as its result. -/
  output : Text
  /-- What it prints about a failure. -/
  complaint : Text := []
  /-- The exit code. -/
  code : Nat := 0
  deriving DecidableEq, Repr

/-- A text on a line of its own. -/
def lineText (t : Text) : Text := t ++ "\n"

/-- The name and the version of the program. -/
def versionText : Text := "cmdx 0.1.0"

/-- How the options are to be used. -/
def usageText : Text := "Usage: cmdx [OPTIONS] <COMMAND>..."

namespace Stop

/-- What the program prints when it stops at once. Wrong words are no regular end. -/
def outcome : Stop → Outcome
  | help => { output := lineText usageText }
  | version => { output := lineText versionText }
  | usage _ => { output := [], complaint := lineText usageText, code := 2 }

end Stop

namespace Outcome

/-- The end after a failure. -/
def failure (message : Text) : Outcome :=
  { output := [], complaint := lineText ("Error: " ++ message), code := 1 }

/-- The same with more printed in front. -/
def prepend (t : Text) (o : Outcome) : Outcome := { o with output := t ++ o.output }

end Outcome

namespace Options

/-- The lines of a report: first what is not supported, then the suggestions. -/
def reportText (r : Report) : Text :=
  (r.unsupported.flatMap fun entry => lineText ("unsupported: " ++ entry)) ++
    r.suggestions.flatMap lineText

/-- Checks the command. Something unsupported is a failure. -/
def lintOutcome (o : Options) (settings : Settings) : Outcome :=
  let report := Linter.lint { rules := settings.table } o.line
  { output := if o.has .json then lineText report.datum.json else reportText report
    code := if report.isClean then 0 else 1 }

/-- What is printed of a conversion. A line that is run is not printed, but its conversion may
be. -/
def conversionText (o : Options) (t : Conversion) : Text :=
  if o.has .json then lineText t.datum.json
  else if o.has .exec then []
  else lineText t.line

/-- Runs a line. -/
def execOutcome (m : Machine) (target : Target) (line : Text) : Outcome :=
  let call := m.shellCall target line
  match call.run fun c => (m.start c).map (·.exit) with
  | .ok code => { output := ((m.start call).map (·.output)).getD [], code }
  | .error e => .failure e.message

/-- Converts the command, and runs it if that is asked for. -/
def convertOutcome (o : Options) (m : Machine) (settings : Settings) : Outcome :=
  let target := (m.host.resolve (o.get? .shell) settings.target).target
  let conversion := Converter.convertLine ⟨settings.enabled, target, settings.table⟩ o.line
  let ending := if o.has .exec then execOutcome m target conversion.line else { output := [] }
  ending.prepend (o.conversionText conversion)

/-- Does what the options say. -/
def outcome (o : Options) (m : Machine) : Outcome :=
  match m.settings (o.get? .config) with
  | .error e => .failure e.message
  | .ok settings =>
    if o.has .lint then o.lintOutcome settings else o.convertOutcome m settings

end Options

/-- What the program prints and how it ends, given the words behind its name. -/
def run (m : Machine) (words : List Text) : Outcome :=
  match Options.parse words with
  | .error stop => stop.outcome
  | .ok options => options.outcome m

end CrossShell
