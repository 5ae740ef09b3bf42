/-
# Polytype.Diagnostic.Display — diagnostics for a terminal.

The same layout is written with or without colours: a `Palette` gives the text that switches each
style on, and the plain palette switches nothing.
-/
import Polytype.Diagnostic

namespace Polytype

/-- The texts that switch styles on, and the one that switches them all off. -/
structure Palette where
  red : String
  yellow : String
  green : String
  cyan : String
  bold : String
  dim : String
  reset : String

/-- Terminal colours. -/
def Palette.colored : Palette where
  red := "\x1b[31m"
  yellow := "\x1b[33m"
  green := "\x1b[32m"
  cyan := "\x1b[36m"
  bold := "\x1b[1m"
  dim := "\x1b[2m"
  reset := "\x1b[0m"

/-- No styles at all. -/
def Palette.plain : Palette := ⟨"", "", "", "", "", "", ""⟩

/-- The palette for a terminal with or without colours. -/
def Palette.of (color : Bool) : Palette := if color then .colored else .plain

/-- The heading of an error of that category. -/
def Category.heading : Category → String
  | .typeError => "Type Error"
  | .nameError => "Name Error"
  | .patternMatchError => "Pattern Match Error"

/-- The two types one under the other, and the location if there is one. -/
def Mismatch.display (p : Palette) (m : Mismatch) : String :=
  "  " ++ p.cyan ++ "Expected: " ++ p.reset ++ p.bold ++ m.expected ++ p.reset ++ "\n" ++
  "  " ++ p.cyan ++ "Actual:   " ++ p.reset ++ p.bold ++ m.actual ++ p.reset ++ "\n" ++
  if m.location.isEmpty then ""
  else "\n  " ++ p.dim ++ "Location: " ++ m.location ++ p.reset ++ "\n"

/-- A numbered suggestion; its code stands on a line of its own. -/
def Suggestion.display (p : Palette) (number : Nat) (s : Suggestion) : String :=
  "  " ++ toString number ++ ". " ++ s.description ++ "\n" ++
  (if s.code.isEmpty then "" else "\n     " ++ p.dim ++ s.code ++ p.reset ++ "\n") ++
  "\n"

namespace Diagnostic

/-- The first line. -/
def displayTitle (p : Palette) (d : Diagnostic) : String :=
  let label := match d.severity with
    | .warning => p.yellow ++ p.bold ++ "Warning"
    | .error => p.red ++ p.bold ++ d.category.heading
  "\n" ++ label ++ p.reset ++ ": " ++ d.title ++ "\n\n"

/-- The suggestions under their heading, numbered from one. -/
def displaySuggestions (p : Palette) (d : Diagnostic) : String :=
  if d.suggestions.isEmpty then ""
  else "  " ++ p.green ++ "Suggestions:" ++ p.reset ++ "\n\n" ++
    String.join ((d.suggestions.zipIdx 1).map fun (s, number) => s.display p number)

/-- The related facts under their heading. -/
def displayRelated (p : Palette) (d : Diagnostic) : String :=
  if d.related.isEmpty then ""
  else "  " ++ p.yellow ++ "Related:" ++ p.reset ++ "\n" ++
    String.join (d.related.map fun fact => "    - " ++ fact ++ "\n") ++ "\n"

/-- The whole diagnostic; parts with nothing to say are left out. -/
def display (p : Palette) (d : Diagnostic) : String :=
  d.displayTitle p ++
  (if d.explanation.isEmpty then "" else "  " ++ d.explanation ++ "\n\n") ++
  (match d.mismatch with
    | some m => m.display p ++ "\n"
    | none => "") ++
  (if d.missing.isEmpty then ""
    else "  " ++ p.cyan ++ "Missing cases:" ++ p.reset ++ " " ++ Text.commas d.missing ++ "\n\n") ++
  d.displaySuggestions p ++
  d.displayRelated p

/-- The rule between two diagnostics of a report. -/
def separator (p : Palette) : String :=
  p.dim ++ "------------------------------------\n\n" ++ p.reset

/-- All diagnostics of a report and their number; nothing at all when there are none. -/
def displayAll (p : Palette) (ds : List Diagnostic) : String :=
  if ds.isEmpty then ""
  else "\n" ++ String.intercalate (separator p) (ds.map (display p)) ++
    "\n" ++ p.bold ++ p.yellow ++ "[WARNING] " ++ toString ds.length ++
    (if ds.length == 1 then " warning" else " warnings") ++ p.reset ++ "\n\n"

end Diagnostic

end Polytype
