import CrossShell.Invocation
import CrossShell.Text.Blank
import CrossShell.Text.Quoted

/-!
# Mappings: commands that are converted word by word

A mapping names a command, what takes its place, and what becomes of each flag.

* `FlagTable`: flags in order, each once.
* `Mapping.problem?`: what keeps a mapping from being registered.
* `Mapping.counterpart?`: the converted invocation. It is all or nothing: one flag that the mapping
  does not know, and there is no counterpart.
-/
namespace CrossShell

/-- What becomes of each flag. The flags are in order and each stands once. -/
abbrev FlagTable := List (Text × Text)

namespace FlagTable

/-- Adds a flag in its place. For a flag that is already there, the new text counts. -/
def insert (flag text : Text) : FlagTable → FlagTable
  | [] => [(flag, text)]
  | (f, t) :: rest =>
    if flag = f then (flag, text) :: rest
    else if Text.before flag f then (flag, text) :: (f, t) :: rest
    else (f, t) :: insert flag text rest

/-- The table of some flags. -/
def ofList (entries : List (Text × Text)) : FlagTable :=
  entries.foldl (fun table e => insert e.1 e.2 table) []

/-- The flags of the table. -/
def keys (table : FlagTable) : List Text := List.map (·.1) table

/-- What becomes of a flag. -/
def get? (table : FlagTable) (flag : Text) : Option Text := List.lookup flag table

end FlagTable

/-- A command that is converted word by word. -/
structure Mapping where
  /-- The command word. -/
  name : Text
  /-- What takes its place. -/
  verb : Text
  /-- What the command does, in a few words. -/
  description : Text := []
  /-- What becomes of its flags. -/
  flags : FlagTable := []
  /-- Whether the command is left alone if it has no arguments. -/
  needsArguments : Bool := false
  deriving DecidableEq, Repr

/-- Why a mapping cannot be registered. -/
inductive MappingError where
  /-- The name is empty. -/
  | emptyName
  /-- Nothing takes the place of the command. -/
  | emptyVerb (name : Text)
  /-- The name holds white space. -/
  | blankInName (name : Text)
  deriving DecidableEq, Repr

/-- The error in words. -/
def MappingError.message : MappingError → Text
  | emptyName => "rule has an empty command name"
  | emptyVerb name => "rule for `" ++ name ++ "` has an empty target verb"
  | blankInName name => "rule name `" ++ name ++ "` contains whitespace"

namespace Mapping

/-- What keeps the mapping from being registered, the name first. -/
def problem? (m : Mapping) : Option MappingError :=
  if m.name.isEmpty then some .emptyName
  else if m.name.any Text.isBlank then some (.blankInName m.name)
  else if (Text.trim m.verb).isEmpty then some (.emptyVerb m.name)
  else none

/-- What becomes of one word: a flag is looked up, any other word loses quotes it does not need. -/
def image? (m : Mapping) (word : TaggedToken) : Option Text :=
  if word.isFlag then m.flags.get? word.value else some (Text.withoutQuotes word.value)

/-- The converted invocation, if every flag is known and arguments are there where needed. -/
def counterpart? (m : Mapping) (inv : Invocation) : Option Text :=
  match inv.words.mapM m.image? with
  | none => none
  | some images =>
    if m.needsArguments && inv.arguments.isEmpty then none
    else some (inv.finish (joinWords (m.verb :: images)))

end Mapping

end CrossShell
