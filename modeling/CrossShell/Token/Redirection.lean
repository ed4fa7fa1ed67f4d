import CrossShell.Text
import CrossShell.Text.Digit

/-!
# The shape of a redirection

A redirection is an optional descriptor, an operator, and what the operator applies to:

* the descriptor is `&` or a run of decimal digits;
* behind `>`, `>>`, `<` and `<<` stands an optional `&` and then nothing, `-`, or digits;
* behind `>`, `>>` and `<` may stand a target instead: it starts with none of `&`, `<`, `>`, `(`
  and has no line feed behind its first character.

The operator may also stand alone; its target is then the next word.
-/
namespace CrossShell

/-- Nothing, `-` or digits, behind an optional `&`. -/
def isDuplicate (t : Text) : Bool :=
  let number := match t with
    | '&' :: rest => rest
    | t => t
  number == ['-'] || number.all Text.isDecimalDigit

/-- A target written directly behind its operator. -/
def isRedirectTarget : Text → Bool
  | [] => false
  | c :: cs => !(c == '&' || c == '<' || c == '>' || c == '(') && cs.all (· != '\n')

/-- A redirection without its descriptor. -/
def isPlainRedirection : Text → Bool
  | '>' :: '>' :: rest => isDuplicate rest || isRedirectTarget rest
  | '>' :: rest => isDuplicate rest || isRedirectTarget rest
  | '<' :: '<' :: rest => isDuplicate rest
  | '<' :: rest => isDuplicate rest || isRedirectTarget rest
  | _ => false

/-- Whether an unquoted word is a redirection. -/
def isRedirection (t : Text) : Bool :=
  match t with
  | '&' :: rest => isPlainRedirection rest
  | t => isPlainRedirection (t.dropWhile Text.isDecimalDigit)

end CrossShell
