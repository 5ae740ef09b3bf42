/-
# Polytype.Registry — what the declarations of a program introduce.

A `TypeTable` says what the names of types mean; a `Registry` adds the constructors.  In the fields
of a constructor the parameters of its type stand as the variables `0`, `1`, … in order, so an
instance of the constructor is a renumbering (`ConstructorInfo.instantiate`).
-/
import Polytype.Name.Similar
import Polytype.Subst
import Polytype.TypeError

namespace Polytype

/-- A declared sum type; its constructors stand in the order of the declaration. -/
structure SumInfo where
  name : String
  params : List String
  constructors : List String
  deriving DecidableEq, Repr

/-- The names of types: declared sums, and synonyms with the types they stand for. -/
structure TypeTable where
  sums : Std.ExtTreeMap String SumInfo := ∅
  synonyms : Std.ExtTreeMap String Ty := ∅

/-- A declared constructor; `siblings` are all constructors of its type in the order of the
declaration, itself among them. -/
structure ConstructorInfo where
  name : String
  typeName : String
  typeParams : List String
  fields : List Ty
  siblings : List String
  deriving DecidableEq

/-- A constructor at chosen types: what it takes and what it gives. -/
structure ConstructorInstance where
  fields : List Ty
  result : Ty
  deriving DecidableEq

/-- Everything that a list of declarations introduces. -/
structure Registry extends TypeTable where
  constructors : Std.ExtTreeMap String ConstructorInfo := ∅

/-- Consecutive type variables. -/
def freshTys (n : TyVar) (count : Nat) : List Ty :=
  (List.range count).map fun (i : Nat) => .var (n + i)

namespace ConstructorInfo

/-- The number of fields. -/
def arity (c : ConstructorInfo) : Nat := c.fields.length

/-- How many fresh variables an instance takes. -/
def paramCount (c : ConstructorInfo) : Nat := c.typeParams.length

/-- The constructor of the type whose parameters are the variables from `n` on. -/
def instantiate (c : ConstructorInfo) (n : TyVar) : ConstructorInstance :=
  let params : List TyVar := (List.range c.paramCount).map Int.ofNat
  { fields := c.fields.map (Subst.renumber params n).apply
    result := .sum c.typeName (freshTys n c.paramCount) }

end ConstructorInfo

namespace Registry

/-- The names of all constructors, in ascending order. -/
def constructorNames (r : Registry) : List String := r.constructors.keys

/-- The constructor of that name. -/
def require (r : Registry) (name : String) : Except TypeError ConstructorInfo :=
  match r.constructors[name]? with
  | some c => .ok c
  | none => .error ⟨.unknownConstructor name, Name.nearest? name r.constructorNames⟩

end Registry

end Polytype
