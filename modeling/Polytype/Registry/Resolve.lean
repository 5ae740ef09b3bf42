/-
# Polytype.Registry.Resolve — from type expressions to types.

Resolving a type expression replaces its names by what they mean.  What happens to a type variable
depends on where the expression stands: a declaration allows its own parameters and nothing else,
while an ascription takes a new variable for every new name (`TypeTable.resolveAscription`).  So
resolution is written once, over the effect of meeting a variable.
-/
import Polytype.Registry
import Polytype.Surface.TypeExpr

namespace Polytype

/-- What the name of a type means once its arguments are counted. -/
inductive Denotation where
  /-- The name stands for this type and takes no arguments. -/
  | closed (t : Ty)
  /-- The name is that of a sum type with as many parameters as there are arguments. -/
  | sum
  deriving DecidableEq

namespace TypeTable

/-- The type that a name stands for by itself: a primitive, or else a synonym. -/
def closed? (table : TypeTable) (name : String) : Option Ty :=
  match Prim.named? name with
  | some p => some (.prim p)
  | none => table.synonyms[name]?

/-- The names of all types. -/
def names (table : TypeTable) : List String :=
  Prim.all.map Prim.name ++ table.sums.keys ++ table.synonyms.keys

/-- What a name means with so many arguments. -/
def denote (table : TypeTable) (name : String) (argCount : Nat) : Except TypeError Denotation :=
  match table.closed? name with
  | some t =>
    if argCount = 0 then .ok (.closed t) else (Fault.typeArity name 0 argCount).raise
  | none =>
    match table.sums[name]? with
    | none => .error ⟨.unknownType name .undeclared, Name.nearest? name table.names⟩
    | some info =>
      if argCount = info.params.length then .ok .sum
      else (Fault.typeArity name info.params.length argCount).raise

variable {m : Type → Type} [Monad m] [MonadLiftT (Except TypeError) m]

mutual
/-- The type that an expression means, if `onVar` says what its variables mean.  Names are looked up
before their arguments, and arguments from left to right. -/
def resolveWith (table : TypeTable) (onVar : String → m Ty) : TypeExpr → m Ty
  | .con name args => do
    match ← (table.denote name args.length : Except TypeError Denotation) with
    | .closed t => return t
    | .sum => return .sum name (← resolveList table onVar args)
  | .var name => onVar name
  | .arrow dom cod => do
    let dom ← resolveWith table onVar dom
    let cod ← resolveWith table onVar cod
    return .fn dom cod
  | .tuple elems => return .tuple (← resolveList table onVar elems)
  | .record fields => return .record (← resolveFields table onVar fields)
/-- Resolves the members of a list, from left to right. -/
def resolveList (table : TypeTable) (onVar : String → m Ty) : List TypeExpr → m (List Ty)
  | [] => return []
  | t :: ts => do
    let t ← resolveWith table onVar t
    let ts ← resolveList table onVar ts
    return t :: ts
/-- Resolves labelled expressions, from left to right. -/
def resolveFields (table : TypeTable) (onVar : String → m Ty) :
    List (String × TypeExpr) → m (List (String × Ty))
  | [] => return []
  | (l, t) :: fs => do
    let t ← resolveWith table onVar t
    let fs ← resolveFields table onVar fs
    return (l, t) :: fs
end

end TypeTable

/-! ## Ascriptions -/

/-- The type variables that stand for names so far, and the next one to draw. -/
structure NamedVars where
  vars : Std.ExtTreeMap String TyVar := ∅
  next : TyVar
  deriving DecidableEq

/-- Resolution that may draw variables.  What it draws stays drawn when it fails. -/
abbrev Resolve := ExceptT TypeError (StateM NamedVars)

/-- The variable that stands for a name: the one from before, or a new one. -/
def NamedVars.ofName (name : String) : Resolve Ty := do
  let scope ← get
  match scope.vars[name]? with
  | some v => return .var v
  | none =>
    set { vars := scope.vars.insert name scope.next, next := scope.next + 1 : NamedVars }
    return .var scope.next

/-- The type that an ascription means. -/
def TypeTable.resolveAscription (table : TypeTable) (t : TypeExpr) : Resolve Ty :=
  table.resolveWith NamedVars.ofName t

end Polytype
