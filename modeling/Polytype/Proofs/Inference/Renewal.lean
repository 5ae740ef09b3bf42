/-
# Polytype.Proofs.Inference.Renewal — generalizing and instantiating undo each other.

A scheme that was made by generalizing a type gives that type back, up to the names of its quantified variables:
an instance is the type under a renaming that leaves alone what the environment mentions and sends the quantified
variables, in ascending order, to the variables that were drawn for it (`Env.Renews`).

Two facts carry the rest.  What is drawn lies at or above the next variable and what the environment mentions lies
below it (`Env.mem_vars_instantiate`), so two instances have nothing but the latter in common.  And the variables that
are quantified when an instance is generalized again are exactly the ones that were drawn, so that choosing types for
these is choosing types for the ones they were drawn for (`Env.instance_generalize_instantiate`).
-/
import Mathlib
import Polytype.Proofs.Inference.Drawing

namespace Polytype

/-! ## The position of a variable in a set -/

namespace VarSet

variable {vs : VarSet} {v w : TyVar}

/-- Variables are listed in ascending order. -/
theorem idxOf_lt_idxOf (hv : v ∈ vs) (hw : w ∈ vs) (hvw : v < w) : vs.toList.idxOf v < vs.toList.idxOf w := by
  have hsorted : vs.toList.Pairwise (· < ·) := Std.ExtTreeSet.ordered_toList.imp Std.compare_eq_lt.mp
  have hv := List.idxOf_lt_length_iff.mpr (Std.ExtTreeSet.mem_toList.mpr hv)
  have hw := List.idxOf_lt_length_iff.mpr (Std.ExtTreeSet.mem_toList.mpr hw)
  refine Nat.lt_of_not_le fun hle => ?_
  rcases Nat.lt_or_eq_of_le hle with hlt | heq
  · have := List.pairwise_iff_getElem.mp hsorted _ _ hw hv hlt
    rw [List.getElem_idxOf, List.getElem_idxOf] at this
    exact Int.lt_asymm hvw this
  · have := List.getElem_idxOf hv
    simp only [← heq, List.getElem_idxOf] at this
    exact Int.ne_of_lt hvw this.symm

end VarSet

/-! ## The variables of an instance -/

namespace Scheme

variable {σ : Scheme} {n v w : TyVar}

/-- What becomes of a variable of the body in the instance at the variables from `n` on. -/
def renewed (σ : Scheme) (n v : TyVar) : TyVar :=
  if v ∈ σ.quantified then n + (σ.quantified.toList.idxOf v : Nat) else v

theorem renewed_of_mem (hv : v ∈ σ.quantified) :
    σ.renewed n v = n + (σ.quantified.toList.idxOf v : Nat) := if_pos hv

theorem renewed_of_notMem (hv : v ∉ σ.quantified) : σ.renewed n v = v := if_neg hv

theorem instantiate_eq_assign (σ : Scheme) (n : TyVar) :
    σ.instantiate n = σ.body.assign fun v => .var (σ.renewed n v) := by
  rw [instantiate, Subst.apply_eq_assign]
  refine Ty.assign_congr fun v _ => ?_
  rw [Subst.image_renumber (nodup_toList _), renewed]
  simp only [Std.ExtTreeSet.mem_toList]
  split <;> rfl

theorem mem_vars_instantiate : w ∈ (σ.instantiate n).vars ↔ ∃ v ∈ σ.body.vars, σ.renewed n v = w := by
  rw [instantiate_eq_assign, Ty.mem_vars_assign]
  simp [Ty.vars, eq_comm]

theorem idxOf_lt_arity (hv : v ∈ σ.quantified) : σ.quantified.toList.idxOf v < σ.arity := by
  rw [arity, ← Std.ExtTreeSet.length_toList]
  exact List.idxOf_lt_length_iff.mpr (Std.ExtTreeSet.mem_toList.mpr hv)

theorem renewed_strictMonoOn (σ : Scheme) (n : TyVar) : StrictMonoOn (σ.renewed n) {v | v ∈ σ.quantified} := by
  intro v hv w hw hvw
  rw [renewed_of_mem hv, renewed_of_mem hw]
  have := VarSet.idxOf_lt_idxOf hv hw hvw
  lia

/-- The quantified variables become all of the variables that are drawn for them. -/
theorem image_renewed (σ : Scheme) (n : TyVar) :
    Set.image (σ.renewed n) {v | v ∈ σ.quantified} = Set.Ico n (n + σ.arity) := by
  ext w
  constructor
  · rintro ⟨v, hv, rfl⟩
    rw [renewed_of_mem hv]
    have := idxOf_lt_arity hv
    exact ⟨by lia, by lia⟩
  · rintro ⟨hle, hlt⟩
    obtain ⟨i, rfl⟩ := Int.le.dest hle
    have hi : i < σ.quantified.toList.length := by
      rw [Std.ExtTreeSet.length_toList]
      change i < σ.arity
      lia
    have hmem : σ.quantified.toList[i] ∈ σ.quantified := Std.ExtTreeSet.mem_toList.mp (List.getElem_mem hi)
    refine ⟨σ.quantified.toList[i], hmem, ?_⟩
    rw [renewed_of_mem hmem, (nodup_toList σ.quantified).idxOf_getElem i hi]

end Scheme

/-! ## Instances of what was generalized -/

namespace Env

variable {Γ : Env} {t : Ty} {n v : TyVar}

theorem generalizes_generalize (Γ : Env) (t : Ty) : Γ.Generalizes t (Γ.generalize t) :=
  ⟨rfl, fun _ => by rw [mem_quantified_generalize, free_iff]⟩

theorem notMem_quantified (hv : Γ.Free v) (t : Ty) : v ∉ (Γ.generalize t).quantified :=
  fun hq => ((generalizes_generalize Γ t).mem_quantified v |>.mp hq).2 hv

theorem free_of_notMem (hv : v ∈ t.vars) (hq : v ∉ (Γ.generalize t).quantified) : Γ.Free v :=
  of_not_not fun hfree => hq ((generalizes_generalize Γ t).mem_quantified v |>.mpr ⟨hv, hfree⟩)

/-- A renaming of the variables of a scheme that keeps them apart: what the environment mentions stays as it is, and
the quantified variables become the variables from `n` on, in ascending order and without a gap. -/
structure Renews (Γ : Env) (σ : Scheme) (n : TyVar) (ρ : TyVar → TyVar) : Prop where
  injOn : Set.InjOn ρ {v | v ∈ σ.body.vars}
  fixed : ∀ v, Γ.Free v → ρ v = v
  ascending : StrictMonoOn ρ {v | v ∈ σ.quantified}
  consecutive : Set.image ρ {v | v ∈ σ.quantified} = Set.Ico n (n + σ.arity)

theorem renews_renewed (hΓ : ∀ v, Γ.Free v → v < n) (t : Ty) :
    Γ.Renews (Γ.generalize t) n ((Γ.generalize t).renewed n) where
  injOn := by
    intro v hv w hw heq
    by_cases hvq : v ∈ (Γ.generalize t).quantified <;> by_cases hwq : w ∈ (Γ.generalize t).quantified
    · exact (Scheme.renewed_strictMonoOn _ n).injOn hvq hwq heq
    · -- one of them was drawn and the other one was there before
      have hlt := hΓ w (free_of_notMem hw hwq)
      rw [Scheme.renewed_of_mem hvq, Scheme.renewed_of_notMem hwq] at heq
      lia
    · have hlt := hΓ v (free_of_notMem hv hvq)
      rw [Scheme.renewed_of_notMem hvq, Scheme.renewed_of_mem hwq] at heq
      lia
    · rwa [Scheme.renewed_of_notMem hvq, Scheme.renewed_of_notMem hwq] at heq
  fixed v hv := Scheme.renewed_of_notMem (notMem_quantified hv t)
  ascending := Scheme.renewed_strictMonoOn _ n
  consecutive := Scheme.image_renewed _ n

/-- A variable of an instance was drawn for it, or is one that the environment mentions. -/
theorem mem_vars_instantiate (hv : v ∈ ((Γ.generalize t).instantiate n).vars) :
    v ∈ Set.Ico n (n + (Γ.generalize t).arity) ∨ Γ.Free v := by
  obtain ⟨w, hw, rfl⟩ := Scheme.mem_vars_instantiate.mp hv
  by_cases hq : w ∈ (Γ.generalize t).quantified
  · rw [← Scheme.image_renewed]
    exact Or.inl ⟨w, hq, rfl⟩
  · rw [Scheme.renewed_of_notMem hq]
    exact Or.inr (free_of_notMem hw hq)

/-- Instances that were drawn one after the other share no more than what the environment mentions. -/
theorem free_of_mem_both {m : TyVar} (hm : n + (Γ.generalize t).arity ≤ m)
    (hv : v ∈ ((Γ.generalize t).instantiate n).vars) (hv' : v ∈ ((Γ.generalize t).instantiate m).vars) :
    Γ.Free v := by
  rcases mem_vars_instantiate hv with hfirst | hfree
  · rcases mem_vars_instantiate hv' with hsecond | hfree
    · exact absurd (Int.lt_of_lt_of_le hfirst.2 hm) (Int.not_lt.mpr hsecond.1)
    · exact hfree
  · exact hfree

/-- Generalizing an instance again quantifies what was drawn, and so loses none of the instances and adds none. -/
theorem instance_generalize_instantiate (hΓ : ∀ v, Γ.Free v → v < n) {u : Ty} :
    (Γ.generalize ((Γ.generalize t).instantiate n)).Instance u ↔ (Γ.generalize t).Instance u := by
  rw [Scheme.instance_iff, Scheme.instance_iff]
  constructor
  · rintro ⟨θ, rfl⟩
    -- the types chosen for the variables that were drawn are chosen for those they were drawn for
    refine ((Γ.generalize t).instanceUnder_instantiate n _).congr fun v hv hq => ?_
    exact (if_neg (notMem_quantified (free_of_notMem hv hq) _)).symm
  · intro h
    obtain ⟨g, hg, rfl⟩ := h.exists_agree fun v hv hq => hΓ v (free_of_notMem hv hq)
    refine ⟨g, Ty.assign_congr fun v hv => ?_⟩
    rw [Scheme.choose]
    split
    · rfl
    · next hq => exact hg v (hΓ v (free_of_notMem hv hq))

/-- **Generalizing and instantiating are inverse up to fresh variables.** The scheme of a type quantifies the
variables of the type that are not free in the environment.  Wherever the next variable is above those free in the
environment, an instance is the type under a renaming that fixes these and sends the quantified variables in
ascending order to the variables drawn; a second instance shares only variables free in the environment; and the
scheme of an instance has the same instances again. -/
theorem generalize_renews (Γ : Env) (t : Ty) (st : InferState) (hΓ : ∀ v, Γ.Free v → v < st.next) :
    Γ.Generalizes t (Γ.generalize t) ∧
      ∃ (u₁ u₂ : Ty) (st₁ st₂ : InferState),
        (Infer.instantiate (Γ.generalize t)).start st = (.ok u₁, st₁) ∧
        (Infer.instantiate (Γ.generalize t)).start st₁ = (.ok u₂, st₂) ∧
        st₁ = { st with next := st.next + (Γ.generalize t).arity } ∧
        (∃ ρ, Γ.Renews (Γ.generalize t) st.next ρ ∧ u₁ = t.assign fun v => .var (ρ v)) ∧
        (∀ v, v ∈ u₁.vars → v ∈ u₂.vars → Γ.Free v) ∧
        ∀ u, (Γ.generalize u₁).Instance u ↔ (Γ.generalize t).Instance u := by
  refine ⟨generalizes_generalize Γ t, _, _, _, _, Infer.start_instantiate _ st, Infer.start_instantiate _ _, rfl,
    ⟨_, renews_renewed hΓ t, Scheme.instantiate_eq_assign _ _⟩, fun v => ?_, fun u => ?_⟩
  · exact free_of_mem_both (Int.le_refl _)
  · exact instance_generalize_instantiate hΓ

/-- The second component of the type is held by the environment, the others are not. -/
theorem generalize_renews_held :
    (∀ v, (bindTy ∅ "held" (.var 1)).Free v → v < 3) ∧
      ∃ (u₁ u₂ : Ty) (st₁ st₂ : InferState),
        (Infer.instantiate (generalize (bindTy ∅ "held" (.var 1)) (.tuple [.var 2, .var 1, .var 0]))).start
          { next := 3 } = (.ok u₁, st₁) ∧
        (Infer.instantiate (generalize (bindTy ∅ "held" (.var 1)) (.tuple [.var 2, .var 1, .var 0]))).start
          st₁ = (.ok u₂, st₂) ∧
        u₁ = .tuple [.var 4, .var 1, .var 3] ∧ (∀ v, v ∈ u₁.vars → v ∈ u₂.vars → v = 1) ∧
        ∀ u, (generalize (bindTy ∅ "held" (.var 1)) u₁).Instance u ↔
          (generalize (bindTy ∅ "held" (.var 1)) (.tuple [.var 2, .var 1, .var 0])).Instance u := by
  have hfree : ∀ v, (bindTy ∅ "held" (.var 1)).Free v → v = 1 := by
    rintro v ⟨x, σ, hx, hv, -⟩
    rw [bindTy, Std.ExtTreeMap.getElem?_insert] at hx
    split at hx
    · cases hx
      simpa [Scheme.mono, Ty.vars] using hv
    · simp at hx
  have hΓ : ∀ v, (bindTy ∅ "held" (.var 1)).Free v → v < 3 := fun v hv => by
    rw [hfree v hv]
    decide
  obtain ⟨-, u₁, u₂, st₁, st₂, h₁, h₂, -, -, hshared, hinstances⟩ :=
    generalize_renews (bindTy ∅ "held" (.var 1)) (.tuple [.var 2, .var 1, .var 0]) { next := 3 } hΓ
  refine ⟨hΓ, u₁, u₂, st₁, st₂, h₁, h₂, ?_, fun v hv hv' => hfree v (hshared v hv hv'), hinstances⟩
  rw [Infer.start_instantiate] at h₁
  rw [← Except.ok.inj (Prod.mk.inj h₁).1]
  cbv

end Env

end Polytype
