import CrossShell.Token.Role

/-!
# One command with its words

An invocation is the command word of a stage, the words behind it, and the redirections from
anywhere in the stage.

* `Invocation.ofTagged?`: the invocation of a tagged stage.
* `Invocation.optionValue?`, `Invocation.positionals`, `Invocation.commandIndex?`: how a command
  reads its words.
* `Invocation.finish`: the redirections put behind a converted command.
-/
namespace CrossShell

/-- A command, its words and its redirections. -/
structure Invocation where
  /-- The command word. -/
  name : Text
  /-- The stage it stands in. -/
  stage : Text
  /-- The words behind the command word, redirections apart. -/
  words : List TaggedToken
  /-- Redirection operators and their targets, in order. -/
  redirects : List Text
  deriving DecidableEq, Repr

namespace Invocation

/-- Words and redirections of the tokens around the command word. -/
structure Parts where
  /-- Words. -/
  words : List TaggedToken
  /-- Redirection operators and targets. -/
  redirects : List Text

/-- Whether the target of a redirection is the next token: it ends in its operator. -/
def needsTarget (redirect : Text) : Bool :=
  redirect.getLast? == some '>' || redirect.getLast? == some '<'

/-- Sorts tokens into words and redirections. `pending` says that the first token is the target of
a redirection before it, `counts` whether words are kept. -/
def sortTokens (counts : Bool) : (pending : Bool) → List TaggedToken → Parts
  | _, [] => ⟨[], []⟩
  | true, t :: ts =>
    let rest := sortTokens counts false ts
    { rest with redirects := t.value :: rest.redirects }
  | false, t :: ts =>
    if t.token.isRedirect then
      let rest := sortTokens counts (needsTarget t.value) ts
      { rest with redirects := t.value :: rest.redirects }
    else
      let rest := sortTokens counts false ts
      if counts then { rest with words := t :: rest.words } else rest

/-- Whether a redirection at the end of the tokens still waits for its target. -/
def leavesPending : (pending : Bool) → List TaggedToken → Bool
  | pending, [] => pending
  | true, _ :: ts => leavesPending false ts
  | false, t :: ts => leavesPending (t.token.isRedirect && needsTarget t.value) ts

/-- The invocation of the first command word among the tokens of a stage. In front of it
only redirections count; one that waits for its target there finds it behind the command word. -/
def ofTagged? (stage : Text) (tagged : List TaggedToken) : Option Invocation :=
  let front := tagged.takeWhile (·.role != .command)
  match tagged.dropWhile (·.role != .command) with
  | [] => none
  | command :: rest =>
    let before := sortTokens false false front
    let behind := sortTokens true (leavesPending false front) rest
    some ⟨command.value, stage, behind.words, before.redirects ++ behind.redirects⟩

/-- The texts of the words. -/
def values (inv : Invocation) : List Text := inv.words.map (·.value)

/-- The flags. -/
def flags (inv : Invocation) : List Text := (inv.words.filter (·.isFlag)).map (·.value)

/-- The words that are no flags. -/
def arguments (inv : Invocation) : List Text := (inv.words.filter (!·.isFlag)).map (·.value)

/-- Whether a flag is given exactly so. -/
def hasFlag (inv : Invocation) (flag : Text) : Bool := inv.flags.contains flag

/-- Whether a flag is a long one. -/
def isLong (flag : Text) : Bool := List.isPrefixOf "--".toList flag

/-- The letters of the short flags, `-abc` being three. -/
def shortChars (inv : Invocation) : List Char :=
  (inv.flags.filter (!isLong ·)).flatMap List.tail

/-- Whether a letter is among the short flags. -/
def hasShort (inv : Invocation) (c : Char) : Bool := inv.shortChars.contains c

/-- The value that a flag carries in itself for an option: `-n5`, `--lines=5`. -/
def attachedValue? (option flag : Text) : Option Text :=
  match Text.dropFront? flag option with
  | none => none
  | some rest =>
    if !isLong option && Text.size option == 2 && !rest.isEmpty then some rest
    else Text.dropFront? rest "="

/-- The value of an option among the words: the next word, or what the flag carries. -/
def optionIn? (option : Text) : List TaggedToken → Option Text
  | [] => none
  | t :: ts =>
    if !t.isFlag then optionIn? option ts
    else if t.value = option then ts.head?.map (·.value)
    else (attachedValue? option t.value).or (optionIn? option ts)

/-- The value of an option spelled `-n 5`, `-n5`, `--lines 5` or `--lines=5`, where it occurs
first. -/
def optionValue? (inv : Invocation) (option : Text) : Option Text := optionIn? option inv.words

/-- The words that are neither flags nor the value behind a flag of `valued`. -/
def positionalsIn (valued : List Text) : (skip : Bool) → List TaggedToken → List Text
  | _, [] => []
  | true, _ :: ts => positionalsIn valued false ts
  | false, t :: ts =>
    if t.isFlag then positionalsIn valued (valued.contains t.value) ts
    else t.value :: positionalsIn valued false ts

/-- The words that are neither flags nor values of the flags `valued`. -/
def positionals (inv : Invocation) (valued : List Text) : List Text :=
  positionalsIn valued false inv.words

/-- The number of words in front of the first that is neither a flag nor a value. -/
def commandIn? (valued : List Text) : (skip : Bool) → List TaggedToken → Option Nat
  | _, [] => none
  | true, _ :: ts => (commandIn? valued false ts).map (· + 1)
  | false, t :: ts =>
    if t.isFlag then (commandIn? valued (valued.contains t.value) ts).map (· + 1) else some 0

/-- For a command that wraps another: the index of the wrapped command word. -/
def commandIndex? (inv : Invocation) (valued : List Text) : Option Nat :=
  commandIn? valued false inv.words

/-- The stage from the first to the last of some words, as written. -/
def textOf? (inv : Invocation) (words : List TaggedToken) : Option Text :=
  match words.head?, words.getLast? with
  | some first, some last => some (Text.slice first.token.start last.token.stop inv.stage)
  | _, _ => none

/-- The stage from a word to the last word, as written. -/
def textFrom? (inv : Invocation) (index : Nat) : Option Text := inv.textOf? (inv.words.drop index)

/-- The source of the input and the redirections of the output. The last input counts; an input
operator without a source takes the input away again. -/
def inputAndOutputs : (input : Option Text) → List Text → Option Text × List Text
  | input, [] => (input, [])
  | input, r :: rs =>
    if r = "<" then
      match rs with
      | [] => (none, [])
      | source :: rs => inputAndOutputs (some source) rs
    else match Text.dropFront? r "<" with
      | some source => inputAndOutputs (some source) rs
      | none =>
        let rest := inputAndOutputs input rs
        (rest.1, Text.replace "/dev/null" "$null" r :: rest.2)

/-- A converted command with the redirections of the invocation. Input comes from `Get-Content`,
and the null device is `$null`. -/
def finish (inv : Invocation) (body : Text) : Text :=
  if inv.redirects.isEmpty then body
  else
    let (input, outputs) := inputAndOutputs none inv.redirects
    let line := joinWords (body :: outputs)
    match input with
    | some source => "Get-Content " ++ source ++ " | " ++ line
    | none => line

end Invocation

/-- Lines of files in front of a command, or the command alone if there are none. -/
def withInput (files : List Text) (body : Text) : Text :=
  if files.isEmpty then body else "Get-Content " ++ Text.join ", " files ++ " | " ++ body

end CrossShell
