import CrossShell.Lint
import CrossShell.Conversion

/-!
# Results as JSON

A result is printed for other programs as one line of JSON, with its fields in order.

* `Datum.json`: the text of a datum.
* `Conversion.datum`, `Report.datum`: the results as data.
-/
namespace CrossShell

/-- A datum of a result. -/
inductive Datum where
  /-- A truth value. -/
  | bool (b : Bool)
  /-- A text. -/
  | text (t : Text)
  /-- Data in order. -/
  | list (items : List Datum)
  /-- Named data in order. -/
  | record (fields : List (Text × Datum))
  deriving Repr

namespace Datum

/-- The escapes of one letter, by what they stand for. -/
def letterEscapes : List (Char × Char) :=
  [('"', '"'), ('\\', '\\'), ('\x08', 'b'), ('\x0c', 'f'), ('\n', 'n'), ('\r', 'r'), ('\t', 't')]

/-- One character of a text in JSON. Control characters are escaped, all others stay as they are. -/
def jsonChar (c : Char) : Text :=
  match letterEscapes.lookup c with
  | some letter => ['\\', letter]
  | none =>
    if c.toNat < 0x20 then
      "\\u00" ++ [Nat.digitChar (c.toNat / 16), Nat.digitChar (c.toNat % 16)]
    else [c]

/-- A text in JSON. -/
def jsonText (t : Text) : Text := "\"" ++ t.flatMap jsonChar ++ "\""

mutual

/-- A datum in JSON, without blanks. -/
def json : Datum → Text
  | bool b => if b then "true" else "false"
  | text t => jsonText t
  | list items => "[" ++ Text.join "," (jsonItems items) ++ "]"
  | record fields => "\x7b" ++ Text.join "," (jsonFields fields) ++ "\x7d"

/-- Each datum in JSON. -/
def jsonItems : List Datum → List Text
  | [] => []
  | d :: ds => d.json :: jsonItems ds

/-- Each named datum in JSON. -/
def jsonFields : List (Text × Datum) → List Text
  | [] => []
  | field :: fields => jsonField field :: jsonFields fields

/-- One named datum in JSON. -/
def jsonField : Text × Datum → Text
  | (name, d) => jsonText name ++ ":" ++ d.json

end

end Datum

/-- A conversion as a datum. -/
def Conversion.datum (t : Conversion) : Datum :=
  .record [("translated", .bool t.converted), ("original_command", .text t.source),
    ("final_command", .text t.line), ("description", .text t.description)]

/-- A report as a datum. -/
def Report.datum (r : Report) : Datum :=
  .record [("unsupported", .list (r.unsupported.map .text)),
    ("suggestions", .list (r.suggestions.map .text))]

end CrossShell
