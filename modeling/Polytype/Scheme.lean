/-
# Polytype.Scheme — types with quantified variables.

A scheme stands for all the types that come from its body when types are put for its quantified
variables.  `instantiate` puts consecutive fresh variables, in ascending order of the quantified ones.
-/
import Polytype.Subst

namespace Polytype

/-- A type in which some variables are quantified. -/
structure Scheme where
  quantified : VarSet
  body : Ty
  deriving DecidableEq

namespace Scheme

/-- The scheme that stands for one type only. -/
def mono (t : Ty) : Scheme := ⟨∅, t⟩

/-- Whether nothing is quantified. -/
def isMono (σ : Scheme) : Bool := σ.quantified.isEmpty

/-- The variables of the body that are not quantified. -/
def freeVars (σ : Scheme) : VarSet := σ.body.freeVars.filter (· ∉ σ.quantified)

/-- Substitution for the free variables; the quantified ones belong to the scheme. -/
def apply (s : Subst) (σ : Scheme) : Scheme :=
  { σ with body := (s.without σ.quantified).apply σ.body }

/-- How many fresh variables an instance takes. -/
def arity (σ : Scheme) : Nat := σ.quantified.size

/-- The instance at the fresh variables from `n` on. -/
def instantiate (σ : Scheme) (n : TyVar) : Ty :=
  (Subst.renumber σ.quantified.toList n).apply σ.body

/-- The body after the list of its quantified variables. -/
def render (σ : Scheme) : String :=
  if σ.isMono then σ.body.render
  else "forall " ++ Text.commas (σ.quantified.toList.map TyVar.render) ++ ". " ++ σ.body.render

@[simp]
theorem mem_freeVars {v : TyVar} {σ : Scheme} :
    v ∈ σ.freeVars ↔ v ∈ σ.body.vars ∧ v ∉ σ.quantified := by
  simp [freeVars, Std.ExtTreeSet.mem_filter]

end Scheme

end Polytype
