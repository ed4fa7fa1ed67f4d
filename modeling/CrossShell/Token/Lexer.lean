import CrossShell.Token

/-!
# Reading a line into tokens

Reading never fails. At each position that is not white space, the first of these that fits
gives the token:

* a quoted run, up to its closing quote or to the end of the line;
* a backslash or a backtick and the operator character it protects, where the two protected
  connectors `` `&`& `` and `` `|`| `` are one token each;
* an operator;
* a word: a run of other characters, in which quoted runs and backslash pairs hide the
  characters that would end it;
* one character by itself, such as a lone `&`.

The length of the token is found first (`lexemeLength`), so that a token is by definition
a piece of the line. `tokenize` then goes through the line once; the characters of the token
just read are passed over one by one.
-/
namespace CrossShell

/-- The white space between tokens: space, tab, line feed, form feed, carriage return. -/
def isGap (c : Char) : Bool := c ∈ [' ', '\t', '\n', '\x0c', '\r']

/-- Number of characters of a quoted run behind its opening quote, closing quote included. -/
def quotedLength (q : Quote) : Text → Nat
  | [] => 0
  | [_] => 1
  | c :: d :: cs =>
    if q = .double ∧ c = '\\' then quotedLength q cs + 2
    else if c = q.char then 1
    else quotedLength q (d :: cs) + 1

/-- Number of characters of a word, of which the part read so far ends inside a run of the given
quote, or outside of any. -/
def wordLength : Option Quote → Text → Nat
  | _, [] => 0
  | none, [c] => if isGap c || isOperatorStart c then 0 else 1
  | some _, [_] => 1
  | none, c :: d :: cs =>
    if isGap c || isOperatorStart c then 0
    else if c = '\\' then wordLength none cs + 2
    else wordLength (Quote.ofChar? c) (d :: cs) + 1
  | some q, c :: d :: cs =>
    if q = .double ∧ c = '\\' then wordLength (some q) cs + 2
    else if c = q.char then wordLength none (d :: cs) + 1
    else wordLength (some q) (d :: cs) + 1

/-- The first operator of the list that the text starts with. -/
def operatorAt? (t : Text) : Option Text := operators.find? (·.isPrefixOf t)

/-- Whether a text starts with an operator character. -/
def startsOperator : Text → Bool
  | [] => false
  | c :: _ => isOperatorStart c

/-- Number of characters of the token at the start of `c :: cs`, where `c` is not white space. -/
def lexemeLength (c : Char) (cs : Text) : Nat :=
  match Quote.ofChar? c with
  | some q => quotedLength q cs + 1
  | none =>
    if c = '\\' ∧ startsOperator cs then 2
    else if c = '\x60' ∧ startsOperator cs then
      if List.isPrefixOf "&`&".toList cs || List.isPrefixOf "|`|".toList cs then 4 else 2
    else match operatorAt? (c :: cs) with
      | some op => op.length
      | none => max 1 (wordLength none (c :: cs))

/-- The token at the start of `c :: cs`, which stands at byte offset `pos`. -/
def lexeme (pos : Nat) (c : Char) (cs : Text) : Token :=
  let value := (c :: cs).take (lexemeLength c cs)
  ⟨value, pos, pos + Text.size value, Quote.ofChar? c⟩

/-- The tokens of a text at byte offset `pos`, of which the first `skip` characters belong to
a token already read. -/
def tokenizeFrom : (pos skip : Nat) → Text → List Token
  | _, _, [] => []
  | pos, skip + 1, c :: cs => tokenizeFrom (pos + c.utf8Size) skip cs
  | pos, 0, c :: cs =>
    if isGap c then tokenizeFrom (pos + c.utf8Size) 0 cs
    else lexeme pos c cs :: tokenizeFrom (pos + c.utf8Size) (lexemeLength c cs - 1) cs

/-- The tokens of a line, in order. -/
def tokenize (line : Text) : List Token := tokenizeFrom 0 0 line

/-- The characters still to be passed over move the position and are no tokens. -/
theorem tokenizeFrom_skip (pos skip : Nat) (t : Text) :
    tokenizeFrom pos skip t = tokenizeFrom (pos + Text.size (t.take skip)) 0 (t.drop skip) := by
  induction t generalizing pos skip with
  | nil => simp [tokenizeFrom]
  | cons c cs ih =>
    cases skip with
    | zero => simp
    | succ skip => simp [tokenizeFrom, ih, Nat.add_assoc]

end CrossShell
