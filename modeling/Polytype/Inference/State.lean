/-
# Polytype.Inference.State — what inference carries along.

Inference draws fresh type variables in ascending order and collects warnings.  Both outlive a
failure: `Infer` gives back the state whether or not it gives a result.
-/
import Polytype.Registry.Resolve
import Polytype.Scheme

namespace Polytype

/-- The next variable to draw, and the warnings so far. -/
structure InferState where
  next : TyVar := 0
  warnings : List Diagnostic := []
  deriving DecidableEq

/-- Computations of the inference algorithm. -/
abbrev Infer := ExceptT TypeError (StateM InferState)

namespace Infer

/-- Runs a computation from a state. -/
def start {α : Type} (x : Infer α) (st : InferState) : Except TypeError α × InferState :=
  x.run.run st

@[simp]
theorem start_pure {α : Type} (a : α) (st : InferState) : (pure a : Infer α).start st = (.ok a, st) :=
  rfl

@[simp]
theorem start_lift {α : Type} (x : Except TypeError α) (st : InferState) :
    (liftM x : Infer α).start st = (x, st) :=
  rfl

/-- A failing first step ends the computation in the state that it leaves. -/
theorem start_bind {α β : Type} (x : Infer α) (f : α → Infer β) (st : InferState) :
    (x >>= f).start st =
      match x.start st with
      | (.ok a, st') => (f a).start st'
      | (.error e, st') => (.error e, st') := by
  simp only [start, ExceptT.run_bind]
  simp only [bind, StateT.bind, StateT.run]
  cases x.run st with
  | mk result st' => cases result <;> rfl

/-- Draws `count` consecutive variables and gives the first of them. -/
def freshBlock (count : Nat) : Infer TyVar := do
  let st ← get
  set { st with next := st.next + count }
  return st.next

/-- Draws one variable. -/
def fresh : Infer Ty := return .var (← freshBlock 1)

/-- Draws several variables. -/
def freshList (count : Nat) : Infer (List Ty) := return freshTys (← freshBlock count) count

/-- An instance of a scheme at fresh variables. -/
def instantiate (σ : Scheme) : Infer Ty := return σ.instantiate (← freshBlock σ.arity)

/-- An instance of a constructor at fresh variables. -/
def instantiateConstructor (c : ConstructorInfo) : Infer ConstructorInstance :=
  return c.instantiate (← freshBlock c.paramCount)

/-- The type that an ascription means; its type variables are new. -/
def ascribed (r : Registry) (t : TypeExpr) : Infer Ty := do
  let st ← get
  let (result, scope) := (r.resolveAscription t).run.run { next := st.next }
  set { st with next := scope.next }
  result

/-- The type of an ascription, or a fresh variable where there is none. -/
def ascribedOrFresh (r : Registry) : Option TypeExpr → Infer Ty
  | some t => ascribed r t
  | none => fresh

/-- Adds a warning. -/
def warn (d : Diagnostic) : Infer Unit :=
  modify fun st => { st with warnings := st.warnings ++ [d] }

end Infer

end Polytype
