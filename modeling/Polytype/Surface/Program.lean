/-
# Polytype.Surface.Program — declarations and whole programs.

A program is a list of type declarations and an expression.  A declaration introduces a sum type with
its parameters and constructors, or a synonym for a type without parameters.
-/
import Polytype.Surface.Expr

namespace Polytype

open Text

/-- A constructor and the types of its fields. -/
structure ConstructorDecl where
  name : String
  fields : List TypeExpr

/-- A declaration of a sum type or of a synonym. -/
inductive Decl where
  | sum (name : String) (params : List String) (constructors : List ConstructorDecl)
  | synonym (name : String) (target : TypeExpr)

/-- A whole program. -/
structure Program where
  decls : List Decl
  body : Expr

/-- The constructor and its fields; a field is in parentheses unless it is a single word. -/
def ConstructorDecl.render (c : ConstructorDecl) : String :=
  c.name ++ String.join (c.fields.map fun t => " " ++ parensIf (!t.isAtom) t.render)

namespace Decl

/-- The name that is declared. -/
def name : Decl → String
  | .sum name _ _ => name
  | .synonym name _ => name

/-- The text of a declaration. -/
def render : Decl → String
  | .synonym name target => "type " ++ name ++ " = " ++ target.render
  | .sum name params constructors =>
    "type " ++ name ++ String.join (params.map (" " ++ ·)) ++ " =" ++
      (if constructors.isEmpty then "" else " ") ++
      String.intercalate " | " (constructors.map ConstructorDecl.render)

/-- Declarations, one to a line. -/
def renderAll (decls : List Decl) : String := String.join (decls.map fun d => d.render ++ "\n")

end Decl

/-- The declarations, and then the body. -/
def Program.render (p : Program) : String := Decl.renderAll p.decls ++ p.body.render

end Polytype
