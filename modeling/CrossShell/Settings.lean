import CrossShell.Rule.Table
import CrossShell.Yaml.Field
import CrossShell.Yaml.Printer

/-!
# Settings

What a user sets in a file: whether lines are converted, the target shell, and further mappings.
Every part may be missing.

* `Settings.parse?`, `Settings.render`: reading and writing the file.
* `Settings.table`: the mappings that hold under the settings.
-/
namespace CrossShell

open Yaml (Node)

/-- What a user can set. -/
structure Settings where
  /-- Whether lines are converted. -/
  enabled : Bool := true
  /-- The name of the target shell. -/
  target : Option Text := none
  /-- Mappings beside the built-in ones. -/
  rules : List Mapping := []
  deriving DecidableEq, Repr

namespace Settings

instance : Inhabited Settings := ⟨{}⟩

/-- Reads what becomes of flags. The last entry of a flag counts. -/
def flagsOfNode? (node : Node) : Option FlagTable := do
  let entries ← node.toEntries?
  let flags ← entries.mapM fun (flag, text) => text.toText?.map fun t => (flag, t)
  return .ofList flags

/-- The fields of a mapping. -/
def mappingFields : List Text := ["unix", "target", "description", "flags", "requires_args"]

/-- Reads a mapping, which has to have a name and a verb. -/
def mappingOfNode? (node : Node) : Option Mapping := do
  let fields ← node.toFields? mappingFields
  let name ← Node.field? fields "unix" Node.toText?
  let verb ← Node.field? fields "target" Node.toText?
  let description ← Node.fieldD fields "description" Node.toText? []
  let flags ← Node.fieldD fields "flags" flagsOfNode? []
  let needsArguments ← Node.fieldD fields "requires_args" Node.toBool? false
  return { name, verb, description, flags, needsArguments }

/-- Reads the part that tells whether lines are converted. -/
def enabledOfNode? (node : Node) : Option Bool := do
  Node.fieldD (← node.toFields? ["enabled"]) "enabled" Node.toBool? true

/-- Reads the part that names the target shell. -/
def targetOfNode? (node : Node) : Option (Option Text) := do
  Node.fieldD (← node.toFields? ["target"]) "target" Node.toOptionalText? none

/-- Reads the list of mappings. -/
def rulesOfNode? (node : Node) : Option (List Mapping) := do
  (← node.toItems?).mapM mappingOfNode?

/-- Reads settings. -/
def ofNode? (node : Node) : Option Settings := do
  let fields ← node.toFields? ["translation", "shell", "rules"]
  let enabled ← Node.fieldD fields "translation" enabledOfNode? true
  let target ← Node.fieldD fields "shell" targetOfNode? none
  let rules ← Node.fieldD fields "rules" rulesOfNode? []
  return { enabled, target, rules }

/-- Reads the text of a settings file. -/
def parse? (text : Text) : Option Settings := (Node.parse? text).bind ofNode?

/-- A record as a node. -/
def record (fields : List (Text × Node)) : Node :=
  .mapping (fields.map fun (name, node) => (.scalar true name, node))

/-- What becomes of flags, as a node. -/
def flagsNode (flags : FlagTable) : Node :=
  .mapping (flags.map fun (flag, text) => (.ofText flag, .ofText text))

/-- A mapping as a node. -/
def mappingNode (m : Mapping) : Node :=
  record [("unix", .ofText m.name), ("target", .ofText m.verb),
    ("description", .ofText m.description), ("flags", flagsNode m.flags),
    ("requires_args", .ofBool m.needsArguments)]

/-- Settings as a node. -/
def toNode (s : Settings) : Node :=
  record [("translation", record [("enabled", .ofBool s.enabled)]),
    ("shell", record [("target", (s.target.map .ofText).getD .null)]),
    ("rules", .sequence (s.rules.map mappingNode))]

/-- The text of a settings file. -/
def render (s : Settings) : Text := s.toNode.render

/-- The built-in mappings with those of the settings behind them. -/
def table (s : Settings) : RuleTable := .withOverlay s.rules

end Settings

end CrossShell
