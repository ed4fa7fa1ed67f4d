import CrossShell.Token

/-!
# Tokens that are one unit of the shell

Reading a line cuts `$(date)` or `2>&1` into several tokens. A fusion pass glues such runs
together again. What it glues it takes from the line itself, blanks included, and does not
look into it.

* `Fusion`: the passes. Each is given by how many tokens after the current one belong to it
  (`Fusion.extent`); `coalesce` does the gluing for all of them.
* `fuse`: the passes in their fixed order.
* `joinWords`: words of an output line, one space apart.
-/
namespace CrossShell

/-- The token that covers `first` and the tokens `more` after it. -/
def Token.merge (line : Text) (first : Token) (more : List Token) : Token :=
  let stop := (more.getLast?.getD first).stop
  ⟨Text.slice first.start stop line, first.start, stop, none⟩

/-- Glues each token to as many followers as `extent` says, given the token and what follows it.
The first `skip` tokens belong to a unit already formed. -/
def coalesce (line : Text) (extent : Token → List Token → Nat) : Nat → List Token → List Token
  | _, [] => []
  | skip + 1, _ :: ts => coalesce line extent skip ts
  | 0, t :: ts =>
    let more := ts.take (extent t ts)
    (if more.isEmpty then t else t.merge line more) :: coalesce line extent more.length ts

/-- The number of tokens up to and with the one that closes a group, if `depth` groups are open
before them. A group that is not closed takes all tokens. -/
def groupLength (opener closer : Text) : Nat → List Token → Nat
  | _, [] => 0
  | depth, t :: ts =>
    if t.isBare opener then groupLength opener closer (depth + 1) ts + 1
    else if t.isBare closer then
      if depth ≤ 1 then 1 else groupLength opener closer (depth - 1) ts + 1
    else groupLength opener closer depth ts + 1

/-- The number of tokens that touch the one before them, the first of them `last`, and are
no operators. -/
def adjacentLength : Token → List Token → Nat
  | _, [] => 0
  | last, t :: ts =>
    if last.touches t && !t.isOperator then adjacentLength t ts + 1 else 0

/-- The first `n` of the tokens, and what touches the last of these. -/
def withAdjacent (first : Token) (ts : List Token) (n : Nat) : Nat :=
  n + adjacentLength ((ts.take n).getLast?.getD first) (ts.drop n)

/-- A redirection operator that a descriptor may stand before. -/
def Token.isRedirectOperator (t : Token) : Bool := t.isBare ">" || t.isBare ">>" || t.isBare "<"

/-- What may name the redirected descriptor: digits, or `&` for both output streams. -/
def Token.isDescriptor (t : Token) : Bool :=
  t.quote.isNone && (t.value == "&" || (!t.value.isEmpty && t.value.all Char.isDigit))

/-- The fusion passes. -/
inductive Fusion where
  /-- `$(`…`)`, with what is written directly before and behind it. -/
  | commandSubstitution
  /-- `${`…`}`, with what is written directly before and behind it. -/
  | braceExpansion
  /-- `{}`, the placeholder of `find` and `xargs`, with what is written directly behind it. -/
  | emptyBraces
  /-- `<<` and its delimiter word. -/
  | heredoc
  /-- `<(`…`)` and `>(`…`)`. -/
  | processSubstitution
  /-- `2>&1`, `2>file`, `&>file`, `>&2`. -/
  | descriptorRedirection
  deriving DecidableEq, Repr

namespace Fusion

/-- A token that ends in `$` and the group it touches. -/
def dollarGroupExtent (opener closer : Text) (t : Token) : List Token → Nat
  | [] => 0
  | next :: ts =>
    if t.quote.isNone && t.value.getLast? == some '$' && next.isBare opener && t.touches next then
      withAdjacent t (next :: ts) (groupLength opener closer 0 (next :: ts))
    else 0

/-- An opening brace and the closing brace it touches. -/
def emptyBracesExtent (t : Token) : List Token → Nat
  | [] => 0
  | next :: ts =>
    if t.isBare "\x7b" && next.isBare "\x7d" && t.touches next then withAdjacent t (next :: ts) 1
    else 0

/-- `<<` and the next token, unless that is an operator. -/
def heredocExtent (t : Token) : List Token → Nat
  | [] => 0
  | next :: _ => if t.isBare "<<" && !next.isOperator then 1 else 0

/-- `<` or `>` and the parenthesis group it touches. -/
def processSubstitutionExtent (t : Token) : List Token → Nat
  | [] => 0
  | next :: ts =>
    if (t.isBare "<" || t.isBare ">") && next.isBare "(" && t.touches next then
      groupLength "(" ")" 0 (next :: ts)
    else 0

/-- Whether the tokens start with an `&` that touches `last`. -/
def startsDuplication (last : Token) : List Token → Bool
  | [] => false
  | t :: _ => t.isBare "&" && last.touches t

/-- Whether the tokens start with a redirection target that touches `last`. -/
def startsTarget (last : Token) : List Token → Bool
  | [] => false
  | t :: _ => last.touches t && !t.isOperator && !t.isBare "&"

/-- The `&` and the target behind a redirection operator `last`, as far as they touch. -/
def targetExtent (last : Token) (ts : List Token) : Nat :=
  if startsDuplication last ts then
    match ts with
    | [] => 0
    | amp :: rest => if startsTarget amp rest then 2 else 1
  else if startsTarget last ts then 1 else 0

/-- A descriptor and the redirection it touches, or a redirection that duplicates one. -/
def descriptorRedirectionExtent (t : Token) : List Token → Nat
  | [] => 0
  | next :: ts =>
    if t.isDescriptor && next.isRedirectOperator && t.touches next then targetExtent next ts + 1
    else if t.isRedirectOperator && next.isBare "&" && t.touches next then
      targetExtent t (next :: ts)
    else 0

/-- How many of the tokens behind `t` a pass glues to it. -/
def extent : Fusion → Token → List Token → Nat
  | commandSubstitution => dollarGroupExtent "(" ")"
  | braceExpansion => dollarGroupExtent "\x7b" "\x7d"
  | emptyBraces => emptyBracesExtent
  | heredoc => heredocExtent
  | processSubstitution => processSubstitutionExtent
  | descriptorRedirection => descriptorRedirectionExtent

/-- One pass over the tokens of a line. -/
def apply (pass : Fusion) (line : Text) (ts : List Token) : List Token :=
  coalesce line pass.extent 0 ts

/-- All passes, in the order in which they run. -/
def all : List Fusion :=
  [commandSubstitution, braceExpansion, emptyBraces, heredoc, processSubstitution,
    descriptorRedirection]

end Fusion

/-- Every pass once, in order. -/
def fuse (line : Text) (ts : List Token) : List Token :=
  Fusion.all.foldl (fun ts pass => pass.apply line ts) ts

/-- Appends a word to a line of words. An empty word adds nothing, and `$` stays glued to a
following `(` or `{`. -/
def appendWord (line word : Text) : Text :=
  if word.isEmpty then line
  else if line.isEmpty then word
  else if line.getLast? == some '$' && (word.head? == some '(' || word.head? == some '{') then
    line ++ word
  else line ++ " " ++ word

/-- The words of a line, one space apart. -/
def joinWords (words : List Text) : Text := words.foldl appendWord []

end CrossShell
