import CrossShell.Text.Blank
import CrossShell.Token.Lexer

/-!
# Cutting a line at its operators

A line is cut at some of its tokens. A token inside an open `(` or `{` is never a cut, so a group
stays in one chunk. Chunks are taken from the line itself, without the blanks at their ends.

* `separators`: the tokens at which a line is cut, chosen by a small automaton (`Cutter`) that
  sees the tokens outside of groups.
* `chunks`: the line between these tokens.
* `splitConnectors`, `splitSequence`, `splitPipe`: the cuts at `&&` and `||`, at `;`, and at
  `|` and `|&`.
-/
namespace CrossShell

/-- The number of open parentheses and braces. -/
structure Nesting where
  /-- Open parentheses. -/
  parens : Nat
  /-- Open braces. -/
  braces : Nat
  deriving DecidableEq, Repr

namespace Nesting

/-- Outside of every group. -/
def top : Nesting := ⟨0, 0⟩

/-- The nesting behind a token. A closing token without its opening one changes nothing. -/
def step (n : Nesting) (t : Token) : Nesting :=
  if t.isBare "(" then { n with parens := n.parens + 1 }
  else if t.isBare ")" then { n with parens := n.parens - 1 }
  else if t.isBare "\x7b" then { n with braces := n.braces + 1 }
  else if t.isBare "\x7d" then { n with braces := n.braces - 1 }
  else n

/-- Whether no group is open. -/
def isTop (n : Nesting) : Bool := n.parens == 0 && n.braces == 0

end Nesting

/-- An automaton that chooses the cuts among the tokens it is shown. -/
structure Cutter (σ : Type) where
  /-- Whether to cut at a token. -/
  cuts : σ → Token → Bool
  /-- The state behind a token. -/
  next : σ → Token → σ

/-- The tokens at which to cut. Only tokens outside of groups are shown to the cutter; a token that
closes the last group counts as outside. -/
def separators {σ : Type} (cutter : Cutter σ) : Nesting → σ → List Token → List Token
  | _, _, [] => []
  | nesting, state, t :: ts =>
    let nesting := nesting.step t
    if nesting.isTop then
      let rest := separators cutter nesting (cutter.next state t) ts
      if cutter.cuts state t then t :: rest else rest
    else separators cutter nesting state ts

/-- A piece of a line and the text of the token that ended it, if one did. -/
structure Chunk where
  /-- The piece, without the blanks at its ends. -/
  text : Text
  /-- The token behind it. -/
  separator : Option Text
  deriving DecidableEq, Repr

/-- The pieces of a line from byte offset `start` on, cut at the given tokens. -/
def chunks (line : Text) : (start : Nat) → List Token → List Chunk
  | start, [] => [⟨Text.trim (Text.dropBytes start line), none⟩]
  | start, t :: ts =>
    ⟨Text.trim (Text.slice start t.start line), some t.value⟩ :: chunks line t.stop ts

/-- The chunks of a line under a cutter that starts in the given state. -/
def cutLine {σ : Type} (cutter : Cutter σ) (state : σ) (line : Text) : List Chunk :=
  chunks line 0 (separators cutter .top state (tokenize line))

/-- A cutter without memory. -/
def Cutter.ofTest (test : Token → Bool) : Cutter Unit := ⟨fun _ => test, fun _ _ => ()⟩

/-! ## Connectors -/

/-- The connectors that make a command depend on the one before it. -/
inductive Connector where
  /-- `&&`: run if the command before succeeded. -/
  | and
  /-- `||`: run if the command before failed. -/
  | or
  deriving DecidableEq, Repr

namespace Connector

/-- The connector as it is written. -/
def text : Connector → Text
  | and => "&&"
  | or => "||"

/-- The connector that a text writes. -/
def ofText? (t : Text) : Option Connector :=
  if t = "&&" then some and else if t = "||" then some or else none

end Connector

/-- A piece of a line that is cut at its connectors. -/
inductive Segment where
  /-- Commands between connectors. -/
  | commands (text : Text)
  /-- A connector. -/
  | connector (c : Connector)
  deriving DecidableEq, Repr

/-- Cuts at unquoted `&&` and `||`. -/
def connectorCutter : Cutter Unit :=
  .ofTest fun t => t.quote.isNone && (Connector.ofText? t.value).isSome

/-- The segments of a chunk: its text unless that is empty, and the connector behind it. -/
def Chunk.segments (chunk : Chunk) : List Segment :=
  (if chunk.text.isEmpty then [] else [.commands chunk.text]) ++
    ((chunk.separator.bind Connector.ofText?).map Segment.connector).toList

/-- The line between its connectors, and the connectors. -/
def splitConnectors (line : Text) : List Segment :=
  (cutLine connectorCutter () line).flatMap Chunk.segments

/-! ## Sequences -/

/-- What the cuts at `;` depend on. -/
structure SequenceState where
  /-- The next token is the first of its command. -/
  atCommand : Bool := true
  /-- The command is `find`. -/
  inFind : Bool := false
  /-- An `-exec` run of that `find` is open. -/
  execOpen : Bool := false
  /-- The token before was a bare `}`. -/
  afterBrace : Bool := false
  deriving DecidableEq, Repr

namespace SequenceState

/-- Cut at a bare `;` that does not close an `-exec` run. -/
def cuts (s : SequenceState) (t : Token) : Bool := t.isBare ";" && !s.execOpen

/-- The words that open a run of `find`. -/
def execWords : List Text := ["-exec", "-execdir", "-ok", "-okdir"]

/-- The spellings of `;` that close a run of `find`. -/
def execEnds : List Text := [";", "\\;", "';'", "\";\""]

/-- Whether the command that a token belongs to is `find`. -/
def findAt (s : SequenceState) (t : Token) : Bool :=
  if s.atCommand then t.isBare "find" else s.inFind

/-- Whether an `-exec` run is open behind a token. -/
def execAfter (s : SequenceState) (t : Token) : Bool :=
  if execWords.contains t.value && t.quote.isNone && s.findAt t then true
  else if execEnds.contains t.value then false
  else if t.value = "+" ∧ s.afterBrace then false
  else s.execOpen

/-- The state behind a token. -/
def next (s : SequenceState) (t : Token) : SequenceState where
  atCommand := s.cuts t
  inFind := s.findAt t
  execOpen := s.execAfter t
  afterBrace := t.isBare "\x7d"

end SequenceState

/-- Cuts at the `;` between commands. -/
def sequenceCutter : Cutter SequenceState := ⟨SequenceState.cuts, SequenceState.next⟩

/-- The commands of a segment between its `;`. A `;` that closes a run of `find -exec` belongs
to `find`. -/
def splitSequence (segment : Text) : List Text :=
  ((cutLine sequenceCutter {} segment).map Chunk.text).filter (!·.isEmpty)

/-! ## Pipelines -/

/-- Cuts at unquoted `|` and `|&`. -/
def pipeCutter : Cutter Unit := .ofTest fun t => t.isBare "|" || t.isBare "|&"

/-- The stage of a chunk. Behind `|&` errors travel along, which is written out as `2>&1`. -/
def Chunk.stage (chunk : Chunk) : Text :=
  if chunk.separator = some "|&" then chunk.text ++ " 2>&1" else chunk.text

/-- The stages of a pipeline. -/
def splitPipe (segment : Text) : List Text :=
  ((cutLine pipeCutter () segment).filter (!·.text.isEmpty)).map Chunk.stage

end CrossShell
