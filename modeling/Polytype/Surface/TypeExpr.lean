/-
# Polytype.Surface.TypeExpr — types as a program writes them.

A type expression names types and type variables; what the names mean is decided later, by the
declarations in scope.  Record fields stand in ascending order of their labels.
-/
import Polytype.Text

namespace Polytype

open Text

/-- A type as written in an ascription or a declaration. -/
inductive TypeExpr where
  | con (name : String) (args : List TypeExpr)
  | var (name : String)
  | arrow (dom cod : TypeExpr)
  | tuple (elems : List TypeExpr)
  | record (fields : List (String × TypeExpr))
  deriving Inhabited

namespace TypeExpr

/-- Induction on type expressions, with the hypothesis for every member of a list of components. -/
@[induction_eliminator]
theorem induct {motive : TypeExpr → Prop}
    (con : ∀ name args, (∀ t ∈ args, motive t) → motive (.con name args))
    (var : ∀ name, motive (.var name))
    (arrow : ∀ dom cod, motive dom → motive cod → motive (.arrow dom cod))
    (tuple : ∀ elems, (∀ t ∈ elems, motive t) → motive (.tuple elems))
    (record : ∀ fields, (∀ f ∈ fields, motive f.2) → motive (.record fields))
    (t : TypeExpr) : motive t :=
  @TypeExpr.rec motive (fun ts => ∀ t ∈ ts, motive t) (fun fs => ∀ f ∈ fs, motive f.2)
    (fun f => motive f.2) con var arrow tuple record
    (by simp) (fun _ _ ht hts => List.forall_mem_cons.2 ⟨ht, hts⟩)
    (by simp) (fun _ _ hf hfs => List.forall_mem_cons.2 ⟨hf, hfs⟩)
    (fun _ _ ht => ht) t

/-- Whether the expression is in parentheses to the left of an arrow. -/
def isArrow : TypeExpr → Bool
  | .arrow _ _ => true
  | _ => false

/-- Whether the expression is in parentheses as an argument of a named type. -/
def isCompound : TypeExpr → Bool
  | .con _ args => !args.isEmpty
  | .arrow _ _ => true
  | _ => false

/-- Whether the expression is a single word. -/
def isAtom : TypeExpr → Bool
  | .con _ args => args.isEmpty
  | .var _ => true
  | _ => false

mutual
/-- The text of a type expression. -/
def render : TypeExpr → String
  | .con name args => name ++ renderArgs args
  | .var name => name
  | .arrow dom cod => parensIf dom.isArrow (render dom) ++ " -> " ++ render cod
  | .tuple elems => "(" ++ commas (renderList elems) ++ ")"
  | .record fields => "\x7b" ++ commas (renderFields fields) ++ "\x7d"
/-- The texts of a list of type expressions. -/
def renderList : List TypeExpr → List String
  | [] => []
  | t :: ts => render t :: renderList ts
/-- The texts of labelled type expressions, each after its label and a colon. -/
def renderFields : List (String × TypeExpr) → List String
  | [] => []
  | (l, t) :: fs => (l ++ ": " ++ render t) :: renderFields fs
/-- The arguments of a named type, each after a blank. -/
def renderArgs : List TypeExpr → String
  | [] => ""
  | t :: ts => " " ++ parensIf t.isCompound (render t) ++ renderArgs ts
end

end TypeExpr

end Polytype
