/-
# Polytype.Diagnostic.Json — diagnostics for an editor.

A diagnostic becomes an object with its severity, its title as the message, the missing cases where
there are any, and the name of the reporting tool.  Inside a string only the quotation mark, the
backslash and the line feed are escaped.

The writer takes a text symbol by symbol and knows nothing but the ASCII characters, so it is written
over any symbols that these belong to: over characters, which the texts of this library consist of
(`Diagnostic.json`, `Diagnostic.jsonAll`), as well as over bytes, which an editor gets.
-/
import Polytype.Diagnostic

namespace Polytype

/-- The word for a severity. -/
def Severity.word : Severity → String
  | .error => "error"
  | .warning => "warning"

namespace Json

/-- What an editor is told about a diagnostic, in texts over the symbols `σ`. -/
structure Entry (σ : Type) where
  severity : Severity
  message : List σ
  missing : List (List σ)
  deriving DecidableEq, Repr

section Writer

variable {σ : Type} [DecidableEq σ] (ascii : Char → σ)

/-- A fixed text. -/
def literal (s : String) : List σ := s.toList.map ascii

/-- How a symbol stands inside a string. -/
def escape (c : σ) : List σ :=
  if c = ascii '"' then literal ascii "\\\""
  else if c = ascii '\\' then literal ascii "\\\\"
  else if c = ascii '\n' then literal ascii "\\n"
  else [c]

/-- A string in quotation marks. -/
def quote (s : List σ) : List σ :=
  literal ascii "\"" ++ s.flatMap (escape ascii) ++ literal ascii "\""

/-- One entry as an object. -/
def object (e : Entry σ) : List σ :=
  literal ascii "\x7b\n" ++
  literal ascii "  \"severity\": " ++ quote ascii (literal ascii e.severity.word) ++
  literal ascii ",\n" ++
  literal ascii "  \"message\": " ++ quote ascii e.message ++ literal ascii ",\n" ++
  (if e.missing.isEmpty then []
    else literal ascii "  \"missingCases\": [" ++
      (literal ascii ", ").intercalate (e.missing.map (quote ascii)) ++ literal ascii "],\n") ++
  literal ascii "  \"source\": \"parlang\"\n" ++
  literal ascii "\x7d"

/-- A report as an object that holds the list of its entries. -/
def report (es : List (Entry σ)) : List σ :=
  literal ascii "\x7b\n" ++
  literal ascii "  \"diagnostics\": [\n" ++
  (literal ascii ",\n").intercalate (es.map fun e => literal ascii "    " ++ object ascii e) ++
  (if es.isEmpty then [] else literal ascii "\n") ++
  literal ascii "  ]\n" ++
  literal ascii "\x7d"

end Writer

end Json

namespace Diagnostic

/-- What an editor is told about a diagnostic. -/
def entry (d : Diagnostic) : Json.Entry Char where
  severity := d.severity
  message := d.title.toList
  missing := d.missing.map String.toList

/-- One diagnostic as an object. -/
def json (d : Diagnostic) : String := String.ofList (Json.object id d.entry)

/-- A report as an object that holds the list of its diagnostics. -/
def jsonAll (ds : List Diagnostic) : String := String.ofList (Json.report id (ds.map entry))

end Diagnostic

end Polytype
