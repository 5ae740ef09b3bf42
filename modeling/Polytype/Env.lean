/-
# Polytype.Env — what is known about the variables in scope.

An environment gives each variable in scope a scheme.  `generalize` quantifies the variables of a
type that the environment does not mention: `mem_quantified_generalize` says exactly which.
-/
import Polytype.Name.Similar
import Polytype.Scheme
import Polytype.TypeError

namespace Polytype

/-- A finite map from the variables in scope to their schemes. -/
abbrev Env := Std.ExtTreeMap String Scheme

namespace Env

/-- Brings a variable of one type into scope, in front of any other of its name. -/
def bindTy (Γ : Env) (name : String) (t : Ty) : Env := Γ.insert name (.mono t)

/-- Brings several variables into scope, each in front of those before it. -/
def bindAll (Γ : Env) (bindings : List (String × Ty)) : Env :=
  bindings.foldl (fun Δ b => bindTy Δ b.1 b.2) Γ

/-- The scheme of a variable. -/
def lookup (Γ : Env) (name : String) : Except TypeError Scheme :=
  match Γ[name]? with
  | some σ => .ok σ
  | none => .error ⟨.unboundVariable name, Name.nearest? name Γ.keys⟩

/-- The type variables that are free in some scheme. -/
def freeVars (Γ : Env) : VarSet := .ofList (Γ.toList.flatMap fun b => b.2.freeVars.toList)

/-- Substitution in every scheme. -/
def apply (s : Subst) (Γ : Env) : Env := Γ.map fun _ σ => σ.apply s

/-- Quantifies the variables of `t` that the environment leaves free to choose. -/
def generalize (Γ : Env) (t : Ty) : Scheme :=
  let fixed := Γ.freeVars
  ⟨t.freeVars.filter (· ∉ fixed), t⟩

theorem mem_freeVars {v : TyVar} {Γ : Env} :
    v ∈ Γ.freeVars ↔ ∃ (name : String) (σ : Scheme), Γ[name]? = some σ ∧ v ∈ σ.freeVars := by
  simp [freeVars, Std.ExtTreeSet.mem_ofList, Std.ExtTreeMap.mem_toList_iff_getElem?_eq_some,
    Std.ExtTreeSet.mem_toList]

theorem mem_quantified_generalize {v : TyVar} {Γ : Env} {t : Ty} :
    v ∈ (Γ.generalize t).quantified ↔ v ∈ t.vars ∧ v ∉ Γ.freeVars := by
  simp [generalize, Std.ExtTreeSet.mem_filter]

end Env

end Polytype
