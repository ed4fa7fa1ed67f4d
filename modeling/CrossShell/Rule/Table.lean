import CrossShell.Rule.Builtin
import CrossShell.Special

/-!
# The table of mappings

The table holds the built-in mappings and then those that a user adds. The first mapping of a name
stays: a later one of the same name is passed over, and so is one that names a command with a
rule of its own, or that is not in order.

A name is looked up in an index, which has the place of its mapping.
-/
namespace CrossShell

/-- Mappings in the order in which they were registered, and where the one of each name stands. -/
structure RuleTable where
  /-- The mappings. -/
  mappings : List Mapping
  /-- The places of the names. -/
  index : List (Text × Nat)
  deriving DecidableEq, Repr

namespace RuleTable

/-- The table without mappings. -/
def empty : RuleTable := ⟨[], []⟩

/-- The place of a name in the order of registration. -/
def position? (table : RuleTable) (name : Text) : Option Nat := table.index.lookup name

/-- The mapping of a name. -/
def get? (table : RuleTable) (name : Text) : Option Mapping :=
  (table.position? name).bind (table.mappings[·]?)

/-- Whether a name has a mapping. -/
def contains (table : RuleTable) (name : Text) : Bool := (table.position? name).isSome

/-- The names, in the order of registration. -/
def names (table : RuleTable) : List Text := table.mappings.map (·.name)

/-- Adds a mapping at the end. -/
def push (table : RuleTable) (m : Mapping) : RuleTable :=
  ⟨table.mappings ++ [m], table.index ++ [(m.name, table.mappings.length)]⟩

/-- Adds a mapping at the end, unless its name is taken. -/
def register (table : RuleTable) (m : Mapping) : RuleTable :=
  if table.contains m.name || (Special.ofName? m.name).isSome then table else table.push m

/-- Adds a mapping of a user, if it is in order. -/
def registerChecked (table : RuleTable) (m : Mapping) : RuleTable :=
  if m.problem?.isSome then table else table.register m

/-- The built-in table. -/
def builtin : RuleTable := builtinMappings.foldl register empty

/-- The built-in table with the mappings of a user behind it. -/
def withOverlay (overlay : List Mapping) : RuleTable := overlay.foldl registerChecked builtin

instance : Inhabited RuleTable := ⟨builtin⟩

end RuleTable

end CrossShell
