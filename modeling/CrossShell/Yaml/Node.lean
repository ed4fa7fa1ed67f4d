import CrossShell.Yaml.Token

/-!
# Nodes

The tree that a document stands for. A value that is left out is an empty plain scalar.

* `Node.ofTokens?`: the tree of a list of tokens.
* `Node.parse?`: the tree of a document, of which there is exactly one.
-/
namespace CrossShell.Yaml

/-- A tree of scalars, lists and maps. -/
inductive Node where
  /-- A scalar, written without quotes or with them. -/
  | scalar (plain : Bool) (text : Text)
  /-- Items in order. -/
  | sequence (items : List Node)
  /-- Keys and values in order. -/
  | mapping (pairs : List (Node × Node))
  deriving Repr

namespace Node

/-- A value that is left out. -/
def missing : Node := scalar true []

/-- Where a node stands: whether blocks may open there, and whether items may follow without a
deeper indentation. -/
structure Place where
  /-- Whether blocks may open. -/
  block : Bool
  /-- Whether items may follow at once. -/
  items : Bool

/-- In a flow collection. -/
def Place.flow : Place := ⟨false, false⟩

/-- As an item of a block, or as the whole document. -/
def Place.item : Place := ⟨true, false⟩

/-- As a key or a value of a block. -/
def Place.entry : Place := ⟨true, true⟩

/-- Whether an item of a block is left out in front of a token. -/
def endsItem : Token → Bool
  | .blockEntry | .blockEnd => true
  | _ => false

/-- Whether an item without a deeper indentation is left out in front of a token. -/
def endsLooseItem : Token → Bool
  | .blockEntry | .blockEnd | .key | .value => true
  | _ => false

/-- Whether a key or value of a block is left out in front of a token. -/
def endsEntry : Token → Bool
  | .key | .value | .blockEnd => true
  | _ => false

/-- Whether a key in a flow collection is left out in front of a token. -/
def endsFlowKey (close : Token) (t : Token) : Bool := t == .value || t == .flowEntry || t == close

/-- Whether a value in a flow collection is left out in front of a token. -/
def endsFlowValue (close : Token) (t : Token) : Bool := t == .flowEntry || t == close

mutual

/-- Reads a node. -/
def node? (fuel : Nat) (place : Place) (ts : List Token) : Option (Node × List Token) :=
  match fuel with
  | 0 => none
  | fuel + 1 =>
    match ts with
    | .scalar plain text :: ts => some (scalar plain text, ts)
    | .flowSequenceStart :: ts => (flowItems? fuel true ts).map fun (xs, ts) => (sequence xs, ts)
    | .flowMappingStart :: ts => (flowPairs? fuel true ts).map fun (ps, ts) => (mapping ps, ts)
    | .blockSequenceStart :: ts =>
      if place.block then (blockItems? fuel ts).map fun (xs, ts) => (sequence xs, ts) else none
    | .blockMappingStart :: ts =>
      if place.block then (blockPairs? fuel ts).map fun (ps, ts) => (mapping ps, ts) else none
    | .blockEntry :: ts =>
      if place.items then
        (looseItems? fuel (.blockEntry :: ts)).map fun (xs, ts) => (sequence xs, ts)
      else none
    | _ => none

/-- Reads a node, unless it is left out in front of the next token. -/
def nodeUnless? (fuel : Nat) (place : Place) (ends : Token → Bool) (ts : List Token) :
    Option (Node × List Token) :=
  match fuel with
  | 0 => none
  | fuel + 1 => if ts.head?.any ends then some (missing, ts) else node? fuel place ts

/-- Reads the value behind a key, which may be left out with its colon. -/
def valueUnless? (fuel : Nat) (place : Place) (ends : Token → Bool) (ts : List Token) :
    Option (Node × List Token) :=
  match fuel with
  | 0 => none
  | fuel + 1 =>
    match ts with
    | .value :: ts => nodeUnless? fuel place ends ts
    | ts => some (missing, ts)

/-- Reads the items of a block, with its end. -/
def blockItems? (fuel : Nat) (ts : List Token) : Option (List Node × List Token) :=
  match fuel with
  | 0 => none
  | fuel + 1 =>
    match ts with
    | .blockEntry :: ts => do
      let (x, ts) ← nodeUnless? fuel .item endsItem ts
      let (xs, ts) ← blockItems? fuel ts
      return (x :: xs, ts)
    | .blockEnd :: ts => some ([], ts)
    | _ => none

/-- Reads items without a deeper indentation; what follows them ends them. -/
def looseItems? (fuel : Nat) (ts : List Token) : Option (List Node × List Token) :=
  match fuel with
  | 0 => none
  | fuel + 1 =>
    match ts with
    | .blockEntry :: ts => do
      let (x, ts) ← nodeUnless? fuel .item endsLooseItem ts
      let (xs, ts) ← looseItems? fuel ts
      return (x :: xs, ts)
    | ts => some ([], ts)

/-- Reads the keys and values of a block, with its end. -/
def blockPairs? (fuel : Nat) (ts : List Token) : Option (List (Node × Node) × List Token) :=
  match fuel with
  | 0 => none
  | fuel + 1 =>
    match ts with
    | .key :: ts => do
      let (k, ts) ← nodeUnless? fuel .entry endsEntry ts
      let (v, ts) ← valueUnless? fuel .entry endsEntry ts
      let (ps, ts) ← blockPairs? fuel ts
      return ((k, v) :: ps, ts)
    | .blockEnd :: ts => some ([], ts)
    | _ => none

/-- Reads the rest of a list in brackets; `first` if no entry was read yet. An entry may be a single
key with its value. -/
def flowItems? (fuel : Nat) (first : Bool) (ts : List Token) : Option (List Node × List Token) :=
  match fuel with
  | 0 => none
  | fuel + 1 =>
    match first, ts with
    | _, .flowSequenceEnd :: ts => some ([], ts)
    | false, .flowEntry :: .flowSequenceEnd :: ts => some ([], ts)
    | false, .flowEntry :: ts | true, ts => do
      let (x, ts) ← flowItem? fuel ts
      let (xs, ts) ← flowItems? fuel false ts
      return (x :: xs, ts)
    | _, _ => none

/-- Reads one entry of a list in brackets. -/
def flowItem? (fuel : Nat) (ts : List Token) : Option (Node × List Token) :=
  match fuel with
  | 0 => none
  | fuel + 1 =>
    match ts with
    | .key :: ts => do
      let (k, ts) ← nodeUnless? fuel .flow (endsFlowKey .flowSequenceEnd) ts
      let (v, ts) ← valueUnless? fuel .flow (endsFlowValue .flowSequenceEnd) ts
      return (mapping [(k, v)], ts)
    | ts => node? fuel .flow ts

/-- Reads the rest of a map in braces; `first` if no entry was read yet. -/
def flowPairs? (fuel : Nat) (first : Bool) (ts : List Token) :
    Option (List (Node × Node) × List Token) :=
  match fuel with
  | 0 => none
  | fuel + 1 =>
    match first, ts with
    | _, .flowMappingEnd :: ts => some ([], ts)
    | false, .flowEntry :: .flowMappingEnd :: ts => some ([], ts)
    | false, .flowEntry :: ts | true, ts => do
      let (p, ts) ← flowPair? fuel ts
      let (ps, ts) ← flowPairs? fuel false ts
      return (p :: ps, ts)
    | _, _ => none

/-- Reads one entry of a map in braces: a key with its value, or a key alone. -/
def flowPair? (fuel : Nat) (ts : List Token) : Option ((Node × Node) × List Token) :=
  match fuel with
  | 0 => none
  | fuel + 1 =>
    match ts with
    | .key :: ts => do
      let (k, ts) ← nodeUnless? fuel .flow (endsFlowKey .flowMappingEnd) ts
      let (v, ts) ← valueUnless? fuel .flow (endsFlowValue .flowMappingEnd) ts
      return ((k, v), ts)
    | ts => do
      let (k, ts) ← node? fuel .flow ts
      return ((k, missing), ts)

end

/-- Whether nothing stands between a mark and this token. -/
def endsDocument : Token → Bool
  | .documentStart | .documentEnd => true
  | _ => false

/-- Reads the node of a document. A document without any token has an empty node; behind `---` the
node may be left out. -/
def documentNode? (fuel : Nat) : List Token → Option (Node × List Token)
  | [] => some (missing, [])
  | .documentStart :: ts =>
    if ts.isEmpty then some (missing, []) else nodeUnless? fuel .item endsDocument ts
  | ts => node? fuel .item ts

/-- The tree of a list of tokens. Only marks of its end may follow the document. Each call passes a
token within three more calls, so the fuel is enough. -/
def ofTokens? (ts : List Token) : Option Node := do
  let (node, rest) ← documentNode? (4 * ts.length + 4) ts
  if rest.all (· == .documentEnd) then some node else none

/-- The tree of a document. -/
def parse? (document : Text) : Option Node := (Token.scan? document).bind ofTokens?

end Node

end CrossShell.Yaml
