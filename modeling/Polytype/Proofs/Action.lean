/-
# Polytype.Proofs.Action — substitutions compose, and act on types and on environments.

Composition is associative, and the empty substitution is neutral for it.  To apply a composite to a type is to
apply one substitution after the other, whatever they bind: domains may overlap, and variables may be sent to
each other.

With a scheme the order matters more.  Each substitution passes over the quantified variables, so a variable that
the first one brings in under a quantifier of its name is out of reach for the second one, while the composite has
both done at once.  `Scheme.apply_comp_iff` says that nothing else can go wrong: the two ways agree exactly when the
second substitution has nothing to say about the variables that are captured.
-/
import Mathlib
import Polytype.Proofs.Inference.Capture
import Polytype.Proofs.Unification.Recursion

namespace Polytype

/-! ## What application tells apart -/

namespace Subst

/-- Substitutions do the same to a type exactly when they agree on its variables. -/
theorem apply_eq_iff {s s' : Subst} {t : Ty} :
    s.apply t = s'.apply t ↔ ∀ v ∈ t.vars, s.image v = s'.image v := by
  refine ⟨fun h => ?_, apply_eq_of_image⟩
  induction t using Ty.children_induct with
  | var v =>
      intro w hw
      obtain rfl : w = v := by simpa [Ty.vars] using hw
      exact h
  | node t ht ih =>
      have hmap : t.children.map s.apply = t.children.map s'.apply := by
        rw [← children_apply ht, ← children_apply ht, h]
      intro v hv
      obtain ⟨c, hc, hv⟩ := (Ty.mem_vars_iff_children ht).mp hv
      exact ih c hc (List.map_inj_left.mp hmap c hc) v hv

/-- The variable occurs in a type that the substitution puts for a variable. -/
def InRange (s : Subst) (w : TyVar) : Prop := ∃ (v : TyVar) (t : Ty), s[v]? = some t ∧ w ∈ t.vars

/-- A variable of an image comes from the range, or is left alone. -/
theorem inRange_or_eq {s : Subst} {v w : TyVar} (hw : w ∈ (s.image v).vars) : s.InRange w ∨ w = v := by
  cases hv : s[v]? with
  | some t =>
      rw [image_of_getElem? hv] at hw
      exact Or.inl ⟨v, t, hv, hw⟩
  | none =>
      rw [image, hv] at hw
      exact Or.inr (List.mem_singleton.mp hw)

end Subst

/-! ## Schemes -/

namespace Scheme

variable {σ : Scheme} {s₁ s₂ : Subst}

/-- The substitution brings the variable under a quantifier of its name. -/
def Captures (σ : Scheme) (s : Subst) (w : TyVar) : Prop :=
  w ∈ σ.quantified ∧ ∃ v ∈ σ.freeVars, w ∈ (s.image v).vars

theorem apply_empty (σ : Scheme) : σ.apply ∅ = σ := by
  have hbody : (Subst.without ∅ σ.quantified).apply σ.body = σ.body := by
    rw [Subst.apply_eq_of_image fun v _ => ?_, Subst.apply_empty]
    rw [Subst.image_without, Subst.image_empty, ite_self]
  rw [apply, hbody]

/-- Both ways send a variable of the body to the same type, unless it brings in a quantified variable that the second
substitution would change. -/
theorem image_without_comp_iff {v : TyVar} :
    ((s₂.comp s₁).without σ.quantified).image v =
        ((s₂.without σ.quantified).comp (s₁.without σ.quantified)).image v ↔
      (v ∉ σ.quantified → ∀ w ∈ (s₁.image v).vars, w ∈ σ.quantified → s₂.image w = .var w) := by
  rw [Subst.image_comp, Subst.image_without, Subst.image_without, Subst.image_comp]
  by_cases hv : v ∈ σ.quantified
  · simp [hv, Subst.image_without]
  · -- the first image is then changed by all of `s₂`, or by what is left of it without the quantified variables
    rw [if_neg hv, if_neg hv, Subst.apply_eq_iff]
    simp only [hv, not_false_eq_true, forall_const, Subst.image_without]
    refine forall₂_congr fun w _ => ?_
    by_cases hw : w ∈ σ.quantified <;> simp [hw]

/-- Two substitutions, one after the other, do to a scheme what their composite does, exactly when the second one
leaves alone what the first one has captured. -/
theorem apply_comp_iff :
    σ.apply (s₂.comp s₁) = (σ.apply s₁).apply s₂ ↔ ∀ w, σ.Captures s₁ w → s₂.image w = .var w := by
  have hbody : σ.apply (s₂.comp s₁) = (σ.apply s₁).apply s₂ ↔
      ((s₂.comp s₁).without σ.quantified).apply σ.body =
        ((s₂.without σ.quantified).comp (s₁.without σ.quantified)).apply σ.body := by
    rw [Subst.apply_comp]
    simp only [apply, mk.injEq, true_and]
  rw [hbody, Subst.apply_eq_iff]
  simp only [image_without_comp_iff]
  constructor
  · rintro h w ⟨hq, v, hv, hw⟩
    obtain ⟨hv, hvq⟩ := mem_freeVars.mp hv
    exact h v hv hvq w hw hq
  · intro h v hv hvq w hw hq
    exact h w ⟨hq, v, mem_freeVars.mpr ⟨hv, hvq⟩, hw⟩

/-- What is captured comes from the range of the substitution. -/
theorem Captures.inRange {w : TyVar} (h : σ.Captures s₁ w) : s₁.InRange w := by
  obtain ⟨hq, v, hv, hw⟩ := h
  rcases Subst.inRange_or_eq hw with hrange | rfl
  · exact hrange
  · exact absurd hq (mem_freeVars.mp hv).2

end Scheme

/-! ## Environments -/

namespace Env

variable {Γ : Env} {s₁ s₂ : Subst}

/-- The substitution brings the variable under a quantifier of its name, in some scheme. -/
def Captures (Γ : Env) (s : Subst) (w : TyVar) : Prop :=
  ∃ (x : String) (σ : Scheme), Γ[x]? = some σ ∧ σ.Captures s w

theorem apply_empty (Γ : Env) : Γ.apply ∅ = Γ := by
  refine Std.ExtTreeMap.ext_getElem? fun x => ?_
  rw [apply, Std.ExtTreeMap.getElem?_map]
  simp only [Scheme.apply_empty, Option.map_id']

theorem apply_comp_iff :
    Γ.apply (s₂.comp s₁) = (Γ.apply s₁).apply s₂ ↔ ∀ w, Γ.Captures s₁ w → s₂.image w = .var w := by
  constructor
  · rintro h w ⟨x, σ, hx, hw⟩
    have hσ := congrArg (·[x]?) h
    simp only [apply, Std.ExtTreeMap.getElem?_map, hx, Option.map_some, Option.some.injEq] at hσ
    exact Scheme.apply_comp_iff.mp hσ w hw
  · intro h
    refine Std.ExtTreeMap.ext_getElem? fun x => ?_
    simp only [apply, Std.ExtTreeMap.getElem?_map]
    cases hx : Γ[x]? with
    | none => rfl
    | some σ => exact congrArg some (Scheme.apply_comp_iff.mpr fun w hw => h w ⟨x, σ, hx, hw⟩)

/-- If no quantified variable is in the range of the first substitution, nothing is captured. -/
theorem apply_comp (h : ∀ v, Γ.Quantified v → ¬ s₁.InRange v) : Γ.apply (s₂.comp s₁) = (Γ.apply s₁).apply s₂ := by
  refine apply_comp_iff.mpr ?_
  rintro w ⟨x, σ, hx, hw⟩
  exact absurd hw.inRange (h w ⟨x, σ, hx, hw.1⟩)

end Env

namespace Subst

/-- **Substitutions are a monoid that acts on types and, as long as nothing is captured, on environments.** A composite
does to a type what its parts do one after the other, composition is associative as an equality of maps, and the empty
substitution is neutral.  The composite does the same to an environment if no variable that is quantified there occurs
in the range of the first part. -/
theorem comp_acts (s₁ s₂ s₃ : Subst) (t : Ty) (Γ : Env) :
    ((s₂.comp s₁).apply t = s₂.apply (s₁.apply t) ∧ apply ∅ t = t) ∧
      (s₃.comp s₂).comp s₁ = s₃.comp (s₂.comp s₁) ∧
      (s₁.comp ∅ = s₁ ∧ comp ∅ s₁ = s₁) ∧
      Γ.apply ∅ = Γ ∧
      ((∀ v, Γ.Quantified v → ¬ s₁.InRange v) → Γ.apply (s₂.comp s₁) = (Γ.apply s₁).apply s₂) :=
  ⟨⟨apply_comp s₂ s₁ t, apply_empty t⟩, comp_assoc s₃ s₂ s₁, ⟨comp_empty s₁, empty_comp s₁⟩, Γ.apply_empty,
    Env.apply_comp⟩

/-- Exchanges two variables. -/
def swapping : Subst := (single 0 (.var 1)).insert 1 (.var 0)

/-- Gives one of them a type, and would change a third one. -/
def settling : Subst := (single 0 .int).insert 2 (.var 0)

/-- A function of which the third variable is quantified. -/
def selecting : Env := (∅ : Env).insert "select" ⟨.ofList [(2 : TyVar)], .fn (.var 2) (.fn (.var 0) (.var 1))⟩

theorem comp_acts_swapping :
    (∀ v, selecting.Quantified v → ¬ swapping.InRange v) ∧
      selecting.apply (settling.comp swapping) = (selecting.apply swapping).apply settling ∧
      ((selecting.apply swapping).apply settling)["select"]? =
        some ⟨.ofList [(2 : TyVar)], .fn (.var 2) (.fn (.var 1) .int)⟩ := by
  have hapart : ∀ v, selecting.Quantified v → ¬ swapping.InRange v := by
    rintro v ⟨x, σ, hx, hv⟩ ⟨w, t, hw, hvt⟩
    obtain rfl : 2 = v := by
      rcases Env.getElem?_insert_iff.mp hx with ⟨-, rfl⟩ | ⟨-, hx⟩
      · simpa using hv
      · simp at hx
    have ht : t = .var 0 ∨ t = .var 1 := by
      simp only [swapping, single, Std.ExtTreeMap.getElem?_insert] at hw
      grind
    rcases ht with rfl | rfl <;> simp [Ty.vars] at hvt
  refine ⟨hapart, (comp_acts swapping settling ∅ .absent selecting).2.2.2.2 hapart, ?_⟩
  cbv

end Subst

end Polytype
