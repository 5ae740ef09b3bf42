/-
# Polytype.Ty.Text — how types are written.

A function type is in parentheses to the left of an arrow, and a function type or an applied sum is
in parentheses as an argument of a sum; nothing else is.  A tuple of one component is therefore
written like that component in parentheses.  An absent type is written `<null>`, which no identifier
reads like.
-/
import Polytype.Text
import Polytype.Ty

namespace Polytype

open Text

/-- The name of a primitive type. -/
def Prim.name : Prim → String
  | .int => "Int"
  | .bool => "Bool"
  | .char => "Char"
  | .range => "Range"

/-- The primitive types, in the order in which they are offered. -/
def Prim.all : List Prim := [.int, .bool, .char, .range]

/-- The primitive type of that name. -/
def Prim.named? (name : String) : Option Prim := Prim.all.find? (·.name == name)

/-- A type variable is written as its number after the letter `t`. -/
def TyVar.render (v : TyVar) : String := "t" ++ toString v

namespace Ty

/-- Whether the type is a function type. -/
def isFn : Ty → Bool
  | .fn _ _ => true
  | _ => false

/-- Whether the type would be misread as an argument of a sum without parentheses. -/
def isCompound : Ty → Bool
  | .fn _ _ => true
  | .sum _ args => !args.isEmpty
  | _ => false

mutual
/-- The text of a type. -/
def render : Ty → String
  | .prim p => p.name
  | .var v => TyVar.render v
  | .fn dom cod => parensIf dom.isFn (render dom) ++ " -> " ++ render cod
  | .tuple elems => "(" ++ commas (renderList elems) ++ ")"
  | .record fields => "\x7b" ++ commas (renderFields fields) ++ "\x7d"
  | .sum name args => name ++ renderArgs args
  | .absent => "<null>"
/-- The texts of a list of types. -/
def renderList : List Ty → List String
  | [] => []
  | t :: ts => render t :: renderList ts
/-- The texts of labelled types, each after its label and a colon. -/
def renderFields : List (String × Ty) → List String
  | [] => []
  | (l, t) :: fs => (l ++ ": " ++ render t) :: renderFields fs
/-- The arguments of a sum, each after a blank. -/
def renderArgs : List Ty → String
  | [] => ""
  | t :: ts => " " ++ parensIf t.isCompound (render t) ++ renderArgs ts
end

end Ty

end Polytype
