/-
# Polytype.Diagnostic — messages to the author of a program.

A diagnostic is an error or a warning with a title and, where they help, an explanation, the two
types that clash, the cases a match leaves out, suggestions and related facts.  This file holds the
data and the one-paragraph `summary`; `Polytype.Diagnostic.Display` and `Polytype.Diagnostic.Json`
write the long forms.
-/
import Polytype.Text

namespace Polytype

/-- What a diagnostic is about. -/
inductive Category where
  | typeError
  | nameError
  | patternMatchError
  deriving DecidableEq, Repr

/-- An error ends the check; a warning does not. -/
inductive Severity where
  | error
  | warning
  deriving DecidableEq, Repr

/-- A proposal to the author, with the code to write where there is some. -/
structure Suggestion where
  description : String
  code : String := ""
  deriving DecidableEq, Repr

/-- The texts of two types that should agree, and where they meet. -/
structure Mismatch where
  expected : String
  actual : String
  location : String := ""
  deriving DecidableEq, Repr

/-- A message to the author of a program.  Empty parts are not shown. -/
structure Diagnostic where
  category : Category
  title : String
  severity : Severity := .error
  explanation : String := ""
  suggestions : List Suggestion := []
  related : List String := []
  missing : List String := []
  mismatch : Option Mismatch := none
  deriving DecidableEq, Repr

/-- What a category is called at the start of a sentence. -/
def Category.label : Category → String
  | .typeError => "Type error"
  | .nameError => "Name error"
  | .patternMatchError => "Pattern match error"

namespace Diagnostic

/-- Whether the check goes on after the diagnostic. -/
def isWarning (d : Diagnostic) : Bool := d.severity == .warning

/-- The warning for a match whose arms leave out the given cases. -/
def nonExhaustiveMatch (missing : List String) : Diagnostic where
  category := .patternMatchError
  title := "pattern match is non-exhaustive"
  severity := .warning
  explanation := "Some values of the scrutinee are not covered by any arm"
  suggestions := missing.head?.toList.map fun first =>
    { description := "Add an arm for each missing case, or a wildcard '_' arm"
      code := "| " ++ first ++ " -> ..." }
  missing := missing

/-- The error for a value that no arm of a match accepts. -/
def noPatternMatched : Diagnostic where
  category := .typeError
  title := "No pattern matched in match expression"
  explanation := "The value being matched is not covered by any arm"

/-- The title after its category; a warning lists the missing cases on a second line. -/
def summary (d : Diagnostic) : String :=
  match d.severity with
  | .error => d.category.label ++ ": " ++ d.title
  | .warning =>
    "Warning: " ++ d.title ++
      if d.missing.isEmpty then "" else "\nMissing cases: " ++ Text.commas d.missing

/-- The summary as far as a reader gets who takes the character zero for the end of a text. -/
def zeroTerminatedSummary (d : Diagnostic) : String :=
  String.ofList (d.summary.toList.takeWhile (· != Char.ofNat 0))

end Diagnostic

end Polytype
