/-
# Polytype.Inference.Pattern — the types of patterns.

A pattern is typed against the type of what it is matched with.  The result is a substitution that
makes the two agree, and the variables that the pattern binds, in order, with their types as they
were when the variable was met: the substitution is still to be applied to them.
-/
import Polytype.Fields
import Polytype.Inference.State
import Polytype.Surface.Pattern
import Polytype.Unify

namespace Polytype

/-- The outcome of typing a pattern. -/
structure PatternTyping where
  subst : Subst := ∅
  bindings : List (String × Ty) := []

namespace Infer

/-- The types of some fields of a record whose fields are known. -/
def fieldTypes (known : List (String × Ty)) : List String → Except TypeError (List Ty)
  | [] => .ok []
  | l :: ls =>
    match known.lookup l with
    | none => (Fault.fieldNotFound l (Fields.labels known)).raise
    | some t => return t :: (← fieldTypes known ls)

/-- The types of the fields that a record pattern names.  A record whose fields are known may be
matched on some of them; any other type becomes the record with exactly the named fields. -/
def recordFields (expected : Ty) (labels : List String) : Infer (Subst × List Ty) := do
  match expected with
  | .record known => return (∅, ← fieldTypes known labels)
  | _ =>
    let types ← freshList labels.length
    let s ← unify expected (.record (labels.zip types))
    return (s, types)

/-- Checks that a constructor has as many arguments as fields, and gives an instance of it. -/
def saturated (r : Registry) (name : String) (argCount : Nat) : Infer ConstructorInstance := do
  let c ← r.require name
  if argCount ≠ c.arity then (Fault.constructorArity name c.arity argCount).raise
  instantiateConstructor c

mutual
/-- Types a pattern against an expected type. -/
def pattern (r : Registry) : Pattern → Ty → Infer PatternTyping
  | .wildcard, _ => return {}
  | .var name, expected => return { bindings := [(name, expected)] }
  | .int _, expected => return { subst := ← unify expected .int }
  | .bool _, expected => return { subst := ← unify expected .bool }
  | .con name args, expected => do
    let c ← saturated r name args.length
    let s ← unify expected c.result
    patternList r args c.fields s
  | .tuple elems, expected => do
    let types ← freshList elems.length
    let s ← unify expected (.tuple types)
    patternList r elems types s
  | .record fields, expected => do
    let (s, types) ← recordFields expected (Fields.labels fields)
    patternFields r fields types s
/-- Types patterns against as many types one after the other, each under what the ones before it have
found out. -/
def patternList (r : Registry) : List Pattern → List Ty → Subst → Infer PatternTyping
  | p :: ps, t :: ts, s => do
    let here ← pattern r p (s.apply t)
    let rest ← patternList r ps ts (here.subst.comp s)
    return { rest with bindings := here.bindings ++ rest.bindings }
  | _, _, s => return { subst := s }
/-- Types labelled patterns against as many types one after the other. -/
def patternFields (r : Registry) : List (String × Pattern) → List Ty → Subst → Infer PatternTyping
  | (_, p) :: ps, t :: ts, s => do
    let here ← pattern r p (s.apply t)
    let rest ← patternFields r ps ts (here.subst.comp s)
    return { rest with bindings := here.bindings ++ rest.bindings }
  | _, _, s => return { subst := s }
end

end Infer

end Polytype
