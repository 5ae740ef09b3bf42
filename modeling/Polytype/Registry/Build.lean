/-
# Polytype.Registry.Build — reading the declarations of a program.

Declarations are read in three passes.  The first looks at the names alone: every declared name is
new and not that of a primitive, parameters of one type are distinct, and constructors are distinct
across all types.  The second resolves synonyms in order: a target may mention any declared sum type,
but only the synonyms before it, and no variables.  The third resolves the fields of constructors,
which may mention everything that is declared and the parameters of their own type.
-/
import Polytype.Registry.Resolve
import Polytype.Surface.Program

namespace Polytype

/-! ## Names -/

/-- The first member of a list that has occurred before it, or in `seen`. -/
def repeated? (seen : List String) : List String → Option String
  | [] => none
  | x :: xs => if x ∈ seen then some x else repeated? (x :: seen) xs

/-- The names that declarations have introduced: those of types, and those of constructors with the
types they belong to. -/
structure Introduced where
  types : List String := []
  constructors : List (String × String) := []

namespace Introduced

/-- Introduces a constructor of the type `typeName`. -/
def addConstructor (typeName : String) (constructors : List (String × String))
    (c : ConstructorDecl) : Except TypeError (List (String × String)) :=
  match constructors.lookup c.name with
  | some owner => (Fault.duplicateDeclaration c.name (some owner)).raise
  | none => .ok ((c.name, typeName) :: constructors)

/-- Introduces the names of one declaration. -/
def addDecl (seen : Introduced) (d : Decl) : Except TypeError Introduced := do
  if (Prim.named? d.name).isSome || seen.types.contains d.name then
    (Fault.duplicateDeclaration d.name none).raise
  match d with
  | .synonym name _ => return { seen with types := name :: seen.types }
  | .sum name params constructors =>
    if let some param := repeated? [] params then
      (Fault.duplicateDeclaration param none).raise
    let constructors ← constructors.foldlM (addConstructor name) seen.constructors
    return { types := name :: seen.types, constructors }

/-- The names of all declarations, if none is introduced twice. -/
def ofDecls (decls : List Decl) : Except TypeError Introduced := decls.foldlM addDecl {}

end Introduced

/-! ## Types -/

/-- The sum type that a declaration introduces. -/
def Decl.sumInfo? : Decl → Option SumInfo
  | .sum name params constructors => some { name, params, constructors := constructors.map (·.name) }
  | .synonym _ _ => none

namespace TypeTable

/-- The sum types that are declared. -/
def ofSums (decls : List Decl) : TypeTable where
  sums := .ofList ((decls.filterMap Decl.sumInfo?).map fun info => (info.name, info))

/-- The target of a synonym has no variables. -/
def noVariable (synonym name : String) : Except TypeError Ty :=
  (Fault.unknownType name (.variableInAlias synonym)).raise

/-- Adds the synonym of a declaration, if it is one. -/
def addSynonym (table : TypeTable) : Decl → Except TypeError TypeTable
  | .sum _ _ _ => .ok table
  | .synonym name target => do
    let t ← table.resolveWith (noVariable name) target
    return { table with synonyms := table.synonyms.insert name t }

/-- The variable that stands for a parameter of the type `owner`. -/
def paramVariable (owner : String) (params : List String) (name : String) : Except TypeError Ty :=
  match params.idxOf? name with
  | some i => .ok (.var i)
  | none => (Fault.unknownType name (.notAParameter owner)).raise

end TypeTable

/-! ## Constructors -/

namespace Registry

/-- Adds a constructor of the type `typeName`. -/
def addConstructor (typeName : String) (params siblings : List String) (r : Registry)
    (c : ConstructorDecl) : Except TypeError Registry := do
  let fields ← c.fields.mapM (r.toTypeTable.resolveWith (TypeTable.paramVariable typeName params))
  let info : ConstructorInfo :=
    { name := c.name, typeName, typeParams := params, fields, siblings }
  return { r with constructors := r.constructors.insert c.name info }

/-- Adds the constructors of a declaration, if it is that of a sum type. -/
def addConstructors (r : Registry) : Decl → Except TypeError Registry
  | .synonym _ _ => .ok r
  | .sum name params constructors =>
    constructors.foldlM (addConstructor name params (constructors.map (·.name))) r

/-- What a list of declarations introduces, or the first fault in them. -/
def build (decls : List Decl) : Except TypeError Registry := do
  let _ ← Introduced.ofDecls decls
  let table ← decls.foldlM TypeTable.addSynonym (.ofSums decls)
  decls.foldlM addConstructors { table with }

end Registry

end Polytype
