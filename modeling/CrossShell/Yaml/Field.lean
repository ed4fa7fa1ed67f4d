import CrossShell.Yaml.Node
import CrossShell.Yaml.Plain

/-!
# Reading typed values from nodes

Each reader accepts the nodes that can stand for a value of its type. A value that is left out is an
empty list, an empty map or an empty text, but no truth value.

* `Node.toText?`, `Node.toBool?`, `Node.toOptionalText?`: scalars.
* `Node.toItems?`, `Node.toEntries?`, `Node.toFields?`: lists, maps and records.
-/
namespace CrossShell.Yaml.Node

/-- A text: any scalar, as it is spelled. -/
def toText? : Node → Option Text
  | scalar _ t => some t
  | _ => none

/-- A truth value: a plain scalar. -/
def toBool? : Node → Option Bool
  | scalar true t => Yaml.toBool? t
  | _ => none

/-- A text that may be missing: left out, or null. -/
def toOptionalText? : Node → Option (Option Text)
  | scalar true t => some (if t.isEmpty || isNull t then none else some t)
  | scalar false t => some (some t)
  | _ => none

/-- The items of a list. -/
def toItems? : Node → Option (List Node)
  | scalar true [] => some []
  | sequence items => some items
  | _ => none

/-- The entries of a map with texts as keys. -/
def toEntries? : Node → Option (List (Text × Node))
  | scalar true [] => some []
  | mapping pairs => pairs.mapM fun (k, v) => k.toText?.map fun key => (key, v)
  | _ => none

/-- The fields of a record. Keys that are not among its `names` are passed over; a field may stand
only once. -/
def toFields? (names : List Text) (node : Node) : Option (List (Text × Node)) := do
  let fields := (← node.toEntries?).filter fun (key, _) => names.contains key
  if (fields.map (·.1)).Nodup then some fields else none

/-- The value of a field that may be missing. -/
def fieldD {α : Type} (fields : List (Text × Node)) (name : Text) (read : Node → Option α)
    (fallback : α) : Option α :=
  match fields.lookup name with
  | none => some fallback
  | some node => read node

/-- The value of a field that has to be there. -/
def field? {α : Type} (fields : List (Text × Node)) (name : Text) (read : Node → Option α) :
    Option α :=
  (fields.lookup name).bind read

end CrossShell.Yaml.Node
