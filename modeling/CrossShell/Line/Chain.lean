import CrossShell.Line.Split
import CrossShell.Target

/-!
# Connectors as guarded statements

A target without `&&` and `||` gets a sequence of statements instead. Each link but the last records
its success in a variable, and each link but the first runs under a test of that variable:

`a && b || c` becomes
`a; $cmdxOk = $?; if ($cmdxOk) { b; $cmdxOk = $? }; if (-not $cmdxOk) { c }`.

A link that is passed over leaves the variable as the last link that ran set it.

* `links`: the commands of a line with the connectors that guard them.
* `renderLinks`: the statements.
* `emulate`: both, for the targets that need it.
-/
namespace CrossShell

/-- Commands and the connector in front of them, which decides whether they run. -/
structure Link where
  /-- The connector to the link before; the first link has none. -/
  guard : Option Connector
  /-- The commands. -/
  text : Text
  deriving DecidableEq, Repr

/-- The links of segments, if some link came before them or not, behind the connector `pending`. A
connector in front of the first link guards nothing, and of several connectors the last counts. -/
def linksFrom : (started : Bool) → (pending : Option Connector) → List Segment → List Link
  | _, _, [] => []
  | started, _, .connector c :: rest => linksFrom started (some c) rest
  | false, pending, .commands t :: rest => ⟨none, t⟩ :: linksFrom true pending rest
  | true, pending, .commands t :: rest => ⟨pending, t⟩ :: linksFrom true none rest

/-- The links of a line. -/
def links (segments : List Segment) : List Link := linksFrom false none segments

/-- The statement that records whether the commands before it succeeded. -/
def recordStatus : Text := "; $cmdxOk = $?"

/-- The statement of a link behind others. -/
def Link.guarded (link : Link) (body : Text) : Text :=
  match link.guard with
  | none => "; " ++ body
  | some .and => "; if ($cmdxOk) \x7b " ++ body ++ " \x7d"
  | some .or => "; if (-not $cmdxOk) \x7b " ++ body ++ " \x7d"

/-- The statements of the links behind the first one. -/
def renderRest : List Link → Text
  | [] => []
  | [link] => link.guarded link.text
  | link :: next :: rest =>
    link.guarded (link.text ++ recordStatus) ++ renderRest (next :: rest)

/-- The statements of a chain with a first link and more. -/
def renderLinks (first : Link) (rest : List Link) : Text :=
  first.text ++ recordStatus ++ renderRest rest

/-- The line with its connectors written as guarded statements, if the target has no connectors. A
line with less than two links stays as it is. -/
def emulate (target : Target) (line : Text) : Text :=
  if target.nativeConnectors then line
  else match links (splitConnectors line) with
    | first :: next :: rest => renderLinks first (next :: rest)
    | _ => line

/-- How the conversion of connectors is described. -/
def emulateDescription : Text := "Emulate && and || with $?"

end CrossShell
