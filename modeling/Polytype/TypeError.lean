/-
# Polytype.TypeError — why a program is rejected.

A `Fault` is the cause, with the names, counts and types that it is about; a `TypeError` adds the
name that was perhaps meant.  The wording is in one place, `TypeError.diagnostic`.
-/
import Polytype.Diagnostic
import Polytype.Ty.Text

namespace Polytype

/-- Why a name in a type expression means nothing. -/
inductive UnknownType where
  /-- No declaration introduces the name. -/
  | undeclared
  /-- The name is a variable, and stands in the target of an alias. -/
  | variableInAlias (aliasName : String)
  /-- The name is a variable, and not a parameter of the type whose field mentions it. -/
  | notAParameter (owner : String)
  deriving DecidableEq, Repr

/-- What is wrong with a program. -/
inductive Fault where
  | unboundVariable (name : String)
  | mismatch (left right : Ty)
  | occursCheck (v : TyVar) (t : Ty)
  | constructorArity (name : String) (expected actual : Nat)
  | unknownConstructor (name : String)
  | unknownType (name : String) (reason : UnknownType)
  | typeArity (name : String) (expected actual : Nat)
  /-- A second declaration of a name; `owner` is the sum type that has the constructor already. -/
  | duplicateDeclaration (name : String) (owner : Option String)
  | fieldNotFound (field : String) (available : List String)
  | recordExpected (actual : Ty)
  | tupleExpected (actual : Ty)
  | tupleIndexOutOfRange (index size : Nat)
  | unknownOperator (op : String)
  deriving DecidableEq

/-- A fault, and the known name nearest to an unknown one. -/
structure TypeError where
  fault : Fault
  nearest : Option String := none
  deriving DecidableEq

/-- Fails with a fault for which there is nothing to suggest. -/
def Fault.raise {α : Type} (f : Fault) : Except TypeError α := .error { fault := f }

namespace Fault

/-- Errors about names, as opposed to errors about types. -/
def category : Fault → Category
  | .unboundVariable _ => .nameError
  | .unknownConstructor _ => .nameError
  | .unknownType _ _ => .nameError
  | .duplicateDeclaration _ _ => .nameError
  | _ => .typeError

/-- How many arguments something takes, and how many it was given. -/
def arityText (expected actual : Nat) : String :=
  " expects " ++ toString expected ++ " arguments, but got " ++ toString actual

/-- The fault in one line. -/
def title : Fault → String
  | .unboundVariable name => "Unbound variable: " ++ name
  | .mismatch left right => "Cannot unify types: " ++ left.render ++ " and " ++ right.render
  | .occursCheck v t => "Occurs check failed: " ++ TyVar.render v ++ " occurs in " ++ t.render
  | .constructorArity name expected actual =>
    "Constructor '" ++ name ++ "'" ++ arityText expected actual
  | .unknownConstructor name => "Unknown constructor: " ++ name
  | .unknownType name _ => "Unknown type: " ++ name
  | .typeArity name expected actual => "Type '" ++ name ++ "'" ++ arityText expected actual
  | .duplicateDeclaration name _ => "Duplicate declaration: " ++ name
  | .fieldNotFound field available =>
    "Field '" ++ field ++ "' not found. Available fields: [" ++ Text.commas available ++ "]"
  | .recordExpected actual => "Expected record type, got " ++ actual.render
  | .tupleExpected actual => "Expected tuple type, got " ++ actual.render
  | .tupleIndexOutOfRange index size =>
    "Tuple index " ++ toString index ++ " out of range for tuple of size " ++ toString size
  | .unknownOperator op => "Unknown operator: " ++ op

/-- What follows from the fault or lies behind it, where that is worth saying. -/
def explanation : Fault → String
  | .unboundVariable name => "'" ++ name ++ "' is not defined in this scope"
  | .occursCheck v _ => "Binding " ++ TyVar.render v ++ " would construct an infinite type"
  | .unknownConstructor name =>
    "No type declaration introduces a constructor named '" ++ name ++ "'"
  | .unknownType _ (.variableInAlias aliasName) =>
    "Type alias '" ++ aliasName ++ "' cannot mention type variables"
  | .unknownType name (.notAParameter owner) =>
    "Type variable '" ++ name ++ "' is not a parameter of '" ++ owner ++ "'"
  | _ => ""

/-- The fact that the fault runs into. -/
def related : Fault → List String
  | .duplicateDeclaration name (some owner) =>
    ["'" ++ name ++ "' is already a constructor of '" ++ owner ++ "'"]
  | _ => []

/-- The types that clash. -/
def mismatched? : Fault → Option Mismatch
  | .mismatch left right => some { expected := left.render, actual := right.render }
  | _ => none

end Fault

/-- The message for an error. -/
def TypeError.diagnostic (e : TypeError) : Diagnostic where
  category := e.fault.category
  title := e.fault.title
  explanation := e.fault.explanation
  suggestions := e.nearest.toList.map fun name =>
    { description := "Did you mean '" ++ name ++ "'?" }
  related := e.fault.related
  mismatch := e.fault.mismatched?

end Polytype
