import CrossShell.Token.Fusion
import CrossShell.Token.Lexer
import CrossShell.Token.Redirection

/-!
# Roles of tokens

One pass from left to right gives each token its role. The only memory is whether a command word
is due: it is at the start and after each connector.

* `tagRoles`: the roles of a list of tokens.
* `tagStage`: read, fuse and tag one stage.
-/
namespace CrossShell

/-- What a token does in its command. -/
inductive Role where
  /-- The name of the command. -/
  | command
  /-- A word that starts with `-`. -/
  | flag
  /-- Any other word, and every redirection. -/
  | argument
  /-- A connector between commands. -/
  | operator
  deriving DecidableEq, Repr

/-- A token with its role. -/
structure TaggedToken where
  /-- The token. -/
  token : Token
  /-- Its role. -/
  role : Role
  deriving DecidableEq, Repr

namespace TaggedToken

/-- The text of the token. -/
def value (t : TaggedToken) : Text := t.token.value

/-- Whether the token is a flag. -/
def isFlag (t : TaggedToken) : Bool := t.role == .flag

end TaggedToken

/-- Whether a token is an unquoted redirection. -/
def Token.isRedirect (t : Token) : Bool := t.quote.isNone && isRedirection t.value

/-- Whether a token has the shape of a flag: unquoted, a dash, and something behind it. -/
def Token.isFlagShaped (t : Token) : Bool :=
  t.quote.isNone && 1 < Text.size t.value && t.value.head? == some '-'

/-- The role of a token, if a command word is `due` or not, and whether one is due after it. -/
def Token.role (due : Bool) (t : Token) : Role × Bool :=
  if t.isConnector then (.operator, true)
  else if t.isRedirect then (.argument, due)
  else if due then (.command, false)
  else if t.isFlagShaped then (.flag, false)
  else (.argument, false)

/-- The roles of tokens, if a command word is `due` before them or not. -/
def tagRolesFrom : Bool → List Token → List TaggedToken
  | _, [] => []
  | due, t :: ts => ⟨t, (t.role due).1⟩ :: tagRolesFrom (t.role due).2 ts

/-- The roles of the tokens of a line. -/
def tagRoles (ts : List Token) : List TaggedToken := tagRolesFrom true ts

/-- The tokens of one stage, fused and with their roles. -/
def tagStage (stage : Text) : List TaggedToken := tagRoles (fuse stage (tokenize stage))

end CrossShell
