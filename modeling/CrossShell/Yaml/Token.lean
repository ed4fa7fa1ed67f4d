import CrossShell.Yaml.Scalar

/-!
# Tokens of a document

Indentation is made explicit: `blockSequenceStart` and `blockMappingStart` open a block, and each
has its `blockEnd`. A key that is only known as one by the colon behind it gets its `key` in front.

`Token.scan?` reads a document. Its state is a `Layout`:

* the columns of the open blocks;
* for each open flow collection, and around them all, the place where a key may have started;
* whether a key may start here.

A key stands on one line and has at most 1024 characters.
-/
namespace CrossShell.Yaml

/-- The tokens of a document. -/
inductive Token where
  /-- The mark `---`. -/
  | documentStart
  /-- The mark `...`. -/
  | documentEnd
  /-- A block of items starts. -/
  | blockSequenceStart
  /-- A block of keys and values starts. -/
  | blockMappingStart
  /-- A block ends. -/
  | blockEnd
  /-- An opening bracket. -/
  | flowSequenceStart
  /-- A closing bracket. -/
  | flowSequenceEnd
  /-- An opening brace. -/
  | flowMappingStart
  /-- A closing brace. -/
  | flowMappingEnd
  /-- The dash in front of an item. -/
  | blockEntry
  /-- The comma between entries. -/
  | flowEntry
  /-- A key follows. -/
  | key
  /-- A value follows. -/
  | value
  /-- A scalar, written without quotes or with them. -/
  | scalar (plain : Bool) (text : Text)
  deriving DecidableEq, Repr

/-- A place in a document. -/
structure Position where
  /-- The line, from 0. -/
  line : Nat
  /-- The column, from 0. -/
  column : Nat
  deriving DecidableEq, Repr

namespace Position

/-- The place behind a character. -/
def next (p : Position) (c : Char) : Position :=
  if isBreak c then ⟨p.line + 1, 0⟩ else ⟨p.line, p.column + 1⟩

/-- The place behind a text. -/
def advance (p : Position) (t : Text) : Position := t.foldl next p

end Position

/-- A place where a key may have started. -/
structure KeyStart where
  /-- Whether it has to be a key, since it stands where the keys of the block stand. -/
  required : Bool
  /-- The number of tokens in front of it. -/
  count : Nat
  /-- The place. -/
  place : Position
  deriving DecidableEq, Repr

/-- The state of reading tokens. -/
structure Layout where
  /-- The text ahead. -/
  text : Text
  /-- Where it starts. -/
  position : Position := ⟨0, 0⟩
  /-- The columns of the open blocks, the innermost first. -/
  indents : List Nat := []
  /-- Whether a key may start here. -/
  keyAllowed : Bool := true
  /-- Where a key may have started, in the innermost flow collection. -/
  keyStart : Option KeyStart := none
  /-- The same for what is around it, the innermost first; empty outside flow collections. -/
  outerStarts : List (Option KeyStart) := []
  /-- The tokens so far, the last one first. -/
  tokens : List Token := []
  deriving DecidableEq, Repr

namespace Layout

/-- Whether this is inside a flow collection. -/
def inFlow (l : Layout) : Bool := !l.outerStarts.isEmpty

/-- Adds a token. -/
def push (token : Token) (l : Layout) : Layout := { l with tokens := token :: l.tokens }

/-- Adds a token behind the first `count` ones. -/
def insert (count : Nat) (token : Token) (l : Layout) : Layout :=
  let later := l.tokens.length - count
  { l with tokens := l.tokens.take later ++ token :: l.tokens.drop later }

/-- Passes over some characters. -/
def skip (count : Nat) (l : Layout) : Layout :=
  { l with text := l.text.drop count, position := l.position.advance (l.text.take count) }

/-- The layout in front of `rest`, which is an end of the text ahead. -/
def skipTo (rest : Text) (l : Layout) : Layout := l.skip (l.text.length - rest.length)

/-- The length of the blanks, breaks and comments in front of a text, and whether a key may start
behind them. A tab is passed over only where it cannot be taken for indentation. -/
def blanksFrom (flow comment keyAllowed : Bool) : Text → Nat × Bool
  | [] => (0, keyAllowed)
  | c :: cs =>
    let passed := fun (comment keyAllowed : Bool) =>
      let (length, allowed) := blanksFrom flow comment keyAllowed cs
      (length + 1, allowed)
    if isBreak c then passed false (keyAllowed || !flow)
    else if comment || c == '#' then passed true keyAllowed
    else if c == ' ' || (c == '\t' && (flow || !keyAllowed)) then passed false keyAllowed
    else (0, keyAllowed)

/-- Passes over blanks, breaks and comments. -/
def skipBlanks (l : Layout) : Layout :=
  let (length, allowed) := blanksFrom l.inFlow false l.keyAllowed l.text
  { l.skip length with keyAllowed := allowed }

/-- Whether a key that started there can no longer end here. -/
def isStale (l : Layout) (start : KeyStart) : Bool :=
  start.place.line < l.position.line || start.place.column + 1024 < l.position.column

/-- Forgets a place that is too far back. There must have been a key if one was required. -/
def refresh? (l : Layout) (start : Option KeyStart) : Option (Option KeyStart) :=
  match start with
  | none => some none
  | some start =>
    if !l.isStale start then some (some start)
    else if start.required then none
    else some none

/-- Forgets all places that are too far back. -/
def refreshStarts? (l : Layout) : Option Layout := do
  let keyStart ← l.refresh? l.keyStart
  let outerStarts ← l.outerStarts.mapM l.refresh?
  return { l with keyStart, outerStarts }

/-- Forgets the innermost place. There must have been a key if one was required. -/
def dropStart? (l : Layout) : Option Layout :=
  if l.keyStart.any (·.required) then none else some { l with keyStart := none }

/-- Notes that a key may start here. -/
def noteStart? (l : Layout) : Option Layout :=
  if !l.keyAllowed then some l
  else do
    let l ← l.dropStart?
    let required := !l.inFlow && l.indents.head? == some l.position.column
    return { l with keyStart := some ⟨required, l.tokens.length, l.position⟩ }

/-- Opens a block at a column, behind the first `count` tokens, if it is further in. -/
def indent (column count : Nat) (token : Token) (l : Layout) : Layout :=
  if l.inFlow || l.indents.head?.any (column ≤ ·) then l
  else { l.insert count token with indents := column :: l.indents }

/-- The number of open blocks that end at a column. -/
def closing (column : Nat) (l : Layout) : Nat :=
  if l.inFlow then 0 else (l.indents.takeWhile (column < ·)).length

/-- Closes some blocks. -/
def close (count : Nat) (l : Layout) : Layout :=
  { l with
    indents := l.indents.drop count
    tokens := List.replicate count Token.blockEnd ++ l.tokens }

/-- Closes the blocks that end at the present column. -/
def unindent (l : Layout) : Layout := l.close (l.closing l.position.column)

/-- Closes all blocks. -/
def unindentAll (l : Layout) : Layout := if l.inFlow then l else l.close l.indents.length

/-- A mark between documents. -/
def documentMark? (token : Token) (l : Layout) : Option Layout := do
  let l ← l.unindentAll.dropStart?
  return { (l.push token).skip 3 with keyAllowed := false }

/-- The start of a flow collection, which may be a key. -/
def flowStart? (token : Token) (l : Layout) : Option Layout := do
  let l ← l.noteStart?
  return { (l.push token).skip 1 with
    keyAllowed := true
    keyStart := none
    outerStarts := l.keyStart :: l.outerStarts }

/-- The end of a flow collection. -/
def flowEnd? (token : Token) (l : Layout) : Option Layout := do
  let l ← l.dropStart?
  return { (l.push token).skip 1 with
    keyAllowed := false
    keyStart := l.outerStarts.head?.getD none
    outerStarts := l.outerStarts.tail }

/-- A comma. -/
def flowEntry? (l : Layout) : Option Layout := do
  let l ← l.dropStart?
  return { (l.push .flowEntry).skip 1 with keyAllowed := true }

/-- A dash in front of an item. -/
def blockEntry? (l : Layout) : Option Layout :=
  if !l.inFlow && !l.keyAllowed then none
  else do
    let l ← (l.indent l.position.column l.tokens.length .blockSequenceStart).dropStart?
    return { (l.push .blockEntry).skip 1 with keyAllowed := true }

/-- A question mark in front of a key. -/
def explicitKey? (l : Layout) : Option Layout :=
  if !l.inFlow && !l.keyAllowed then none
  else do
    let l ← (l.indent l.position.column l.tokens.length .blockMappingStart).dropStart?
    return { (l.push .key).skip 1 with keyAllowed := !l.inFlow }

/-- A colon. What stands in front of it becomes a key, if it can be one. -/
def value? (l : Layout) : Option Layout :=
  match l.keyStart with
  | some start =>
    let l := (l.insert start.count .key).indent start.place.column start.count .blockMappingStart
    some { (l.push .value).skip 1 with keyAllowed := false, keyStart := none }
  | none =>
    if !l.inFlow && !l.keyAllowed then none
    else
      let l := l.indent l.position.column l.tokens.length .blockMappingStart
      some { (l.push .value).skip 1 with keyAllowed := !l.inFlow }

/-- A quoted scalar. -/
def quoted? (double : Bool) (l : Layout) : Option Layout := do
  let l ← l.noteStart?
  let read ← readQuoted double (l.text.drop 1)
  return { (l.push (.scalar false read.value)).skipTo read.rest with keyAllowed := false }

/-- A plain scalar. Behind it a key may start on a later line. -/
def plain? (l : Layout) : Option Layout := do
  let l ← l.noteStart?
  let least := (l.indents.head?.map (· + 1)).getD 0
  let read ← plainFrom l.inFlow least .none l.position.column l.text
  return { (l.push (.scalar true read.value)).skipTo read.rest with keyAllowed := read.overLines }

/-- The characters that cannot start a plain scalar, or only in front of another character. -/
def isIndicator (c : Char) : Bool :=
  "-?:,[]\x7b\x7d#&*!|>'\"%@\x60".toList.contains c

/-- Whether a plain scalar starts here. -/
def startsPlain (flow : Bool) (c : Char) (cs : Text) : Bool :=
  !(isSpace c || isIndicator c) || (c == '-' && !cs.head?.any isSpace) ||
    (!flow && (c == '?' || c == ':') && !startsBlank cs)

/-- Reads one token that starts with `c`. -/
def token? (c : Char) (cs : Text) (l : Layout) : Option Layout :=
  let lineStart := l.position.column == 0
  if lineStart && startsMarker documentStartMark (c :: cs) then l.documentMark? .documentStart
  else if lineStart && startsMarker documentEndMark (c :: cs) then l.documentMark? .documentEnd
  else if lineStart && c == '%' then none
  else if c == '[' then l.flowStart? .flowSequenceStart
  else if c == '\x7b' then l.flowStart? .flowMappingStart
  else if c == ']' then l.flowEnd? .flowSequenceEnd
  else if c == '\x7d' then l.flowEnd? .flowMappingEnd
  else if c == ',' then l.flowEntry?
  else if c == '-' && startsBlank cs then l.blockEntry?
  else if c == '?' && (l.inFlow || startsBlank cs) then l.explicitKey?
  else if c == ':' && (l.inFlow || startsBlank cs) then l.value?
  else if c == '\'' then l.quoted? false
  else if c == '"' then l.quoted? true
  else if startsPlain l.inFlow c cs then l.plain?
  else none

/-- Reads all tokens. Each step but the last passes over a character, so `fuel` above the length of
the text is enough. -/
def tokensFrom? : Nat → Layout → Option (List Token)
  | 0, _ => none
  | fuel + 1, l => do
    let l ← l.skipBlanks.refreshStarts?
    let l := l.unindent
    match l.text with
    | [] =>
      let l ← l.unindentAll.dropStart?
      return l.tokens.reverse
    | c :: cs => tokensFrom? fuel (← l.token? c cs)

end Layout

/-- The text of a document without a mark of its byte order. -/
def dropByteOrder : Text → Text
  | '\ufeff' :: t => t
  | t => t

/-- The tokens of a document. -/
def Token.scan? (document : Text) : Option (List Token) :=
  let text := normalizeBreaks (dropByteOrder document)
  if text.all isAllowed then Layout.tokensFrom? (text.length + 1) { text } else none

end CrossShell.Yaml
