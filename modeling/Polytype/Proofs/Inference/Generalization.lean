/-
# Polytype.Proofs.Inference.Generalization — the environments of inference and of the typing rules.

Inference works with an environment whose free variables are still to be found out; an assignment says
what becomes of them.  Under an assignment `f` the environment `Γ` of inference is compared with an
environment `Δ` of the rules: `Δ` *offers* what `Γ` asks for when every instance under `f` is an instance
in `Δ` (`Env.Offers`), and `Γ` *admits* `Δ` when it is the other way round (`Env.Admits`).

Both pass through a step of inference, through the binding of a variable of one type, and through the
generalization of a `let`.  For the last one soundness has to type the value at new variables in place of
the quantified ones (`exists_generic`), and completeness has to know that a variable which `Γ` holds
fast can only become a type that `Δ` holds fast (`Env.Admits.free_of_free`).
-/
import Mathlib.Data.Finset.Basic
import Mathlib.Data.Fintype.EquivFin
import Polytype.Proofs.Inference.Hygiene

namespace Polytype

/-! ## Schemes and bindings after a step -/

namespace Scheme

variable {σ : Scheme} {s : Subst} {f : Assignment} {t : Ty}

/-- A variable that is not quantified does not become one that is. -/
theorem notMem_quantified_of_mem_image (hq : ∀ v ∈ σ.quantified, ¬ s.Mentions v) {v w : TyVar}
    (hv : v ∉ σ.quantified) (hw : w ∈ (s.image v).vars) : w ∉ σ.quantified := by
  intro hwq
  by_cases hvs : v ∈ s
  · exact hq w hwq (Or.inr ⟨v, hvs, hw⟩)
  · rw [Subst.image_of_notMem hvs] at hw
    obtain rfl : w = v := by simpa [Ty.vars] using hw
    exact hv hwq

/-- A step that stays away from the quantified variables captures nothing: the free variables of the
result are those of the types that are put for the free variables. -/
theorem mem_freeVars_apply (hq : ∀ v ∈ σ.quantified, ¬ s.Mentions v) {w : TyVar} :
    w ∈ (σ.apply s).freeVars ↔ ∃ v ∈ σ.freeVars, w ∈ (s.image v).vars := by
  have hvars : w ∈ (σ.apply s).body.vars ↔
      ∃ v ∈ σ.body.vars, w ∈ ((s.without σ.quantified).image v).vars := Subst.mem_vars_apply
  rw [mem_freeVars, hvars]
  constructor
  · rintro ⟨⟨v, hv, hw⟩, hwq⟩
    rw [Subst.image_without] at hw
    split at hw
    · next hvq =>
        obtain rfl : w = v := by simpa [Ty.vars] using hw
        exact absurd hvq hwq
    · next hvq => exact ⟨v, mem_freeVars.mpr ⟨hv, hvq⟩, hw⟩
  · rintro ⟨v, hv, hw⟩
    obtain ⟨hv, hvq⟩ := mem_freeVars.mp hv
    refine ⟨⟨v, hv, ?_⟩, notMem_quantified_of_mem_image hq hvq hw⟩
    rwa [Subst.image_without, if_neg hvq]

/-- A step that stays away from the quantified variables does not change the instances. -/
theorem instanceUnder_apply (hf : s.SolvedBy f) (hq : ∀ v ∈ σ.quantified, ¬ s.Mentions v) :
    (σ.apply s).InstanceUnder f t ↔ σ.InstanceUnder f t := by
  have h : ∀ θ, (σ.apply s).body.assign ((σ.apply s).choose θ f) = σ.body.assign (σ.choose θ f) := by
    intro θ
    show ((s.without σ.quantified).apply σ.body).assign (σ.choose θ f) = _
    rw [Subst.assign_apply]
    refine Ty.assign_congr fun v _ => ?_
    rw [Subst.image_without]
    by_cases hv : v ∈ σ.quantified
    · rw [if_pos hv, Ty.assign_var]
    · rw [if_neg hv, choose, if_neg hv, ← hf v]
      exact Ty.assign_congr fun w hw => if_neg (notMem_quantified_of_mem_image hq hv hw)
  constructor
  · rintro ⟨θ, rfl⟩
    exact ⟨θ, h θ⟩
  · rintro ⟨θ, rfl⟩
    exact ⟨θ, (h θ).symm⟩

end Scheme

/-- Variables with the types that an assignment gives them. -/
def assignAll (f : Assignment) (bs : List (String × Ty)) : List (String × Ty) :=
  bs.map fun b => (b.1, b.2.assign f)

/-- A step changes nothing for those who solve it. -/
theorem assignAll_apply {f : Assignment} {s : Subst} (hf : s.SolvedBy f) (bs : List (String × Ty)) :
    assignAll f (bs.map fun b => (b.1, s.apply b.2)) = assignAll f bs := by
  simp [assignAll, hf.assign_apply, Function.comp_def]

/-! ## Clean environments -/

namespace Env

variable {W : Set TyVar} {n n₁ : TyVar} {Γ Δ : Env} {s : Subst} {f g : Assignment} {t : Ty}

/-- The free variables are in use, and the quantified ones are old and out of use. -/
structure Clean (W : Set TyVar) (n : TyVar) (Γ : Env) : Prop where
  below : Below W n
  free : Γ.FreeIn W
  quantified : ∀ (x : String) (σ : Scheme), Γ[x]? = some σ → ∀ v ∈ σ.quantified, v < n ∧ v ∉ W

namespace Clean

theorem empty (hW : Below W n) : Clean W n ∅ :=
  ⟨hW, freeIn_empty W, fun x σ hx => by simp at hx⟩

theorem notMem_grow (hΓ : Γ.Clean W n) {x : String} {σ : Scheme} (hx : Γ[x]? = some σ) {v : TyVar}
    (hv : v ∈ σ.quantified) : v ∉ Polytype.grow W n n₁ := by
  obtain ⟨hlt, hW⟩ := hΓ.quantified x σ hx v hv
  rintro (h | h)
  · exact hW h
  · exact absurd hlt (Int.not_lt.mpr h.1)

theorem grow (hΓ : Γ.Clean W n) (hn : n ≤ n₁) : Γ.Clean (Polytype.grow W n n₁) n₁ :=
  ⟨hΓ.below.grow hn, hΓ.free.mono (subset_grow W n n₁), fun x σ hx v hv =>
    ⟨Int.lt_of_lt_of_le (hΓ.quantified x σ hx v hv).1 hn, hΓ.notMem_grow hx hv⟩⟩

theorem not_mentions (hΓ : Γ.Clean W n) (hs : s.Threaded W n n₁) {x : String} {σ : Scheme}
    (hx : Γ[x]? = some σ) : ∀ v ∈ σ.quantified, ¬ s.Mentions v :=
  fun v hv h => hΓ.notMem_grow hx hv (hs.settled.within v h)

theorem apply (hΓ : Γ.Clean W n) (hs : s.Threaded W n n₁) :
    (Γ.apply s).Clean (scopeAfter W n n₁ s) n₁ := by
  refine ⟨hs.below_scopeAfter, hΓ.free.apply_threaded hs, fun x τ hx v hv => ?_⟩
  obtain ⟨σ, hσ, rfl⟩ := getElem?_apply_iff.mp hx
  exact ⟨Int.lt_of_lt_of_le (hΓ.quantified x σ hσ v hv).1 hs.le, fun h => hΓ.notMem_grow hσ hv h.1⟩

theorem bindTy (hΓ : Γ.Clean W n) (ht : t.Within W) (x : String) : (Γ.bindTy x t).Clean W n := by
  refine ⟨hΓ.below, hΓ.free.bindTy ht x, fun y σ hy v hv => ?_⟩
  rcases getElem?_insert_iff.mp hy with ⟨-, rfl⟩ | ⟨-, hy⟩
  · simp [Scheme.mono] at hv
  · exact hΓ.quantified y σ hy v hv

theorem bindAll (hΓ : Γ.Clean W n) {bs : List (String × Ty)} (hbs : ∀ b ∈ bs, b.2.Within W) :
    (Γ.bindAll bs).Clean W n := by
  induction bs generalizing Γ with
  | nil => exact hΓ
  | cons b bs ih =>
      obtain ⟨hb, hbs⟩ := List.forall_mem_cons.mp hbs
      exact ih (hΓ.bindTy hb b.1) hbs

/-- The variables that a generalization quantifies go out of use. -/
theorem generalize (hΓ : Γ.Clean W n) (ht : t.Within W) (x : String) :
    Clean {v | v ∈ W ∧ v ∉ (Γ.generalize t).quantified} n (Γ.insert x (Γ.generalize t)) := by
  have hfree : Γ.FreeIn {v | v ∈ W ∧ v ∉ (Γ.generalize t).quantified} := by
    refine fun v hv => ⟨hΓ.free v hv, fun hq => ?_⟩
    exact (mem_quantified_generalize.mp hq).2 (free_iff.mp hv)
  refine ⟨hΓ.below.mono (fun v hv => hv.1) (Int.le_refl n), hfree.generalize x t,
    fun y σ hy v hv => ?_⟩
  · rcases getElem?_insert_iff.mp hy with ⟨-, rfl⟩ | ⟨-, hy⟩
    · exact ⟨hΓ.below v (ht v (mem_quantified_generalize.mp hv).1), fun h => h.2 hv⟩
    · obtain ⟨hlt, hW⟩ := hΓ.quantified y σ hy v hv
      exact ⟨hlt, fun h => hW h.1⟩

/-- What a free variable becomes is free after the step. -/
theorem free_apply (hΓ : Γ.Clean W n) (hs : s.Threaded W n n₁) {v w : TyVar} (hv : Γ.Free v)
    (hw : w ∈ (s.image v).vars) : (Γ.apply s).Free w := by
  obtain ⟨x, σ, hx, hvσ⟩ := hv
  refine ⟨x, σ.apply s, getElem?_apply_iff.mpr ⟨σ, hx, rfl⟩, Scheme.mem_freeVars.mp ?_⟩
  refine (Scheme.mem_freeVars_apply (hΓ.not_mentions hs hx)).mpr ⟨v, ?_, hw⟩
  exact Scheme.mem_freeVars.mpr hvσ

end Clean

/-! ## Offers -/

/-- Every instance under `f` of a scheme of `Γ` is an instance of the scheme in `Δ`. -/
def Offers (f : Assignment) (Γ Δ : Env) : Prop :=
  ∀ (x : String) (σ : Scheme), Γ[x]? = some σ →
    ∃ τ, Δ[x]? = some τ ∧ ∀ t, σ.InstanceUnder f t → τ.Instance t

namespace Offers

theorem empty (f : Assignment) (Δ : Env) : Offers f ∅ Δ := fun x σ hx => by simp at hx

theorem congr (h : Offers f Γ Δ) (hfg : ∀ v, Γ.Free v → g v = f v) : Offers g Γ Δ := by
  intro x σ hx
  obtain ⟨τ, hτ, hinst⟩ := h x σ hx
  refine ⟨τ, hτ, fun t ht => hinst t (ht.congr fun v hv hq => ?_)⟩
  exact (hfg v ⟨x, σ, hx, hv, hq⟩).symm

theorem apply (h : Offers f Γ Δ) (hΓ : Γ.Clean W n) (hs : s.Threaded W n n₁) (hf : s.SolvedBy f) :
    Offers f (Γ.apply s) Δ := by
  intro x τ hx
  obtain ⟨σ, hσ, rfl⟩ := getElem?_apply_iff.mp hx
  obtain ⟨τ, hτ, hinst⟩ := h x σ hσ
  refine ⟨τ, hτ, fun t ht => hinst t ?_⟩
  exact (Scheme.instanceUnder_apply hf (hΓ.not_mentions hs hσ)).mp ht

theorem insert (h : Offers f Γ Δ) {σ τ : Scheme} (hστ : ∀ t, σ.InstanceUnder f t → τ.Instance t)
    (x : String) : Offers f (Γ.insert x σ) (Δ.insert x τ) := by
  intro y ρ hy
  rcases getElem?_insert_iff.mp hy with ⟨rfl, rfl⟩ | ⟨hxy, hy⟩
  · exact ⟨τ, getElem?_insert_iff.mpr (Or.inl ⟨rfl, rfl⟩), hστ⟩
  · obtain ⟨τ', hτ', hinst⟩ := h y ρ hy
    exact ⟨τ', getElem?_insert_iff.mpr (Or.inr ⟨hxy, hτ'⟩), hinst⟩

theorem bindTy (h : Offers f Γ Δ) (x : String) (t : Ty) :
    Offers f (Γ.bindTy x t) (Δ.insert x (.mono (t.assign f))) := by
  refine h.insert (fun u hu => Scheme.instance_iff.mpr (Scheme.instanceUnder_mono_iff.mpr ?_)) x
  rw [Scheme.instanceUnder_mono_iff.mp hu]
  exact (Ty.assign_var_self _).symm

theorem bindAll (h : Offers f Γ Δ) (bs : List (String × Ty)) :
    Offers f (Γ.bindAll bs) (Δ.withVars (assignAll f bs)) := by
  induction bs generalizing Γ Δ with
  | nil => exact h
  | cons b bs ih => exact ih (h.bindTy b.1 b.2)

end Offers

/-! ## New variables for the quantified ones -/

/-- Some shift takes the members of one list out of another. -/
theorem exists_shift (l₁ l₂ : List TyVar) : ∃ k : TyVar, ∀ v ∈ l₁, v + k ∉ l₂ := by
  obtain ⟨k, hk⟩ := Infinite.exists_notMem_finset
    (l₁.flatMap fun v => l₂.map fun w => w - v).toFinset
  refine ⟨k, fun v hv hmem => hk ?_⟩
  rw [List.mem_toFinset, List.mem_flatMap]
  refine ⟨v, hv, List.mem_map.mpr ⟨v + k, hmem, ?_⟩⟩
  lia

/-- The quantified variables become new ones, by a shift, and the others what `f` says. -/
def shifted (σ : Scheme) (k : TyVar) (f : Assignment) : Assignment :=
  σ.choose (fun v => .var (v + k)) f

/-- At new variables the body of a scheme has all the instances of the scheme, once it is
generalized again. -/
theorem instance_of_shifted {σ τ : Scheme} {k : TyVar}
    (hfree : ∀ v ∈ σ.quantified, ¬ Δ.Free (v + k))
    (hnew : ∀ v ∈ σ.quantified, ∀ w ∈ σ.body.vars, v + k ∉ (f w).vars)
    (hτ : Δ.Generalizes (σ.body.assign (shifted σ k f)) τ) {u : Ty} (hu : σ.InstanceUnder f u) :
    τ.Instance u := by
  obtain ⟨θ, rfl⟩ := hu
  refine Scheme.instance_iff.mpr
    ⟨fun w => if w - k ∈ σ.quantified then θ (w - k) else .var w, ?_⟩
  rw [hτ.body_eq, Ty.assign_assign]
  refine Ty.assign_congr fun v hv => ?_
  rw [shifted, Scheme.choose, Scheme.choose]
  by_cases hq : v ∈ σ.quantified
  · rw [if_pos hq, if_pos hq, Ty.assign_var, Scheme.choose, if_pos]
    · rw [if_pos]
      · exact congrArg θ (by lia)
      · have hback : v + k - k = v := by lia
        rwa [hback]
    · refine (hτ.mem_quantified _).mpr ⟨?_, hfree v hq⟩
      refine Ty.mem_vars_assign.mpr ⟨v, hv, ?_⟩
      rw [shifted, Scheme.choose, if_pos hq]
      simp [Ty.vars]
  · -- a variable that is held fast becomes a type without any of the new variables
    rw [if_neg hq, if_neg hq]
    refine (Ty.assign_eq_self fun w hw => ?_).symm
    rw [Scheme.choose]
    split
    · rw [if_neg]
      intro hwq
      refine hnew _ hwq v hv ?_
      have hback : w - k + k = w := by lia
      rwa [hback]
    · rfl

/-- There is an assignment that solves `s` as `f` does, offers as much, and types the value of a `let`
generically: generalizing its type gives a scheme with all the instances of the inferred one. -/
theorem exists_generic (hΓ : Γ.Clean W n) (hs : s.Threaded W n n₁)
    (ht : t.Within (scopeAfter W n n₁ s)) (hf : s.SolvedBy f) (h : Offers f Γ Δ) :
    ∃ g, s.SolvedBy g ∧ Offers g Γ Δ ∧ ∀ (x : String) (τ : Scheme), Δ.Generalizes (t.assign g) τ →
      Offers f ((Γ.apply s).insert x ((Γ.apply s).generalize t)) (Δ.insert x τ) := by
  obtain ⟨k, hk⟩ := exists_shift ((Γ.apply s).generalize t).quantified.toList
    (Δ.freeVars.toList ++ t.vars.flatMap fun v => (f v).vars)
  have hfree : ∀ v ∈ ((Γ.apply s).generalize t).quantified, ¬ Δ.Free (v + k) := by
    intro v hv hvΔ
    refine hk v (Std.ExtTreeSet.mem_toList.mpr hv) (List.mem_append_left _ ?_)
    exact Std.ExtTreeSet.mem_toList.mpr (free_iff.mp hvΔ)
  have hnew : ∀ v ∈ ((Γ.apply s).generalize t).quantified, ∀ w ∈ t.vars, v + k ∉ (f w).vars := by
    intro v hv w hw hmem
    refine hk v (Std.ExtTreeSet.mem_toList.mpr hv) (List.mem_append_right _ ?_)
    exact List.mem_flatMap.mpr ⟨w, hw, hmem⟩
  refine ⟨fun v => (s.image v).assign (shifted ((Γ.apply s).generalize t) k f),
    hs.settled.idempotent.solvedBy _, h.congr fun v hv => ?_, fun x τ hτ => ?_⟩
  · -- what is free in the environment is not quantified, so nothing changes there
    rw [← hf v]
    refine Ty.assign_congr fun w hw => if_neg fun hq => ?_
    exact (mem_quantified_generalize.mp hq).2 (free_iff.mp (hΓ.free_apply hs hv hw))
  · refine (h.apply hΓ hs hf).insert (fun u hu => instance_of_shifted hfree hnew ?_ hu) x
    have hopen : t.assign (fun v => (s.image v).assign (shifted ((Γ.apply s).generalize t) k f)) =
        t.assign (shifted ((Γ.apply s).generalize t) k f) := by
      refine Ty.assign_congr fun v hv => ?_
      rw [Subst.image_of_notMem (ht v hv).2, Ty.assign_var]
    exact hopen ▸ hτ

/-! ## Admission -/

/-- The same variables are in scope, and every instance of a scheme of `Δ` is an instance under `f` of
the scheme in `Γ`. -/
structure Admits (f : Assignment) (Γ Δ : Env) : Prop where
  exists_scheme : ∀ (x : String) (τ : Scheme), Δ[x]? = some τ → ∃ σ, Γ[x]? = some σ
  exists_rule : ∀ (x : String) (σ : Scheme), Γ[x]? = some σ → ∃ τ, Δ[x]? = some τ
  instanceUnder : ∀ (x : String) (σ τ : Scheme), Γ[x]? = some σ → Δ[x]? = some τ →
    ∀ t, τ.Instance t → σ.InstanceUnder f t

namespace Admits

theorem empty (f : Assignment) : Admits f ∅ ∅ :=
  ⟨fun x τ hx => by simp at hx, fun x τ hx => by simp at hx, fun x σ τ hx => by simp at hx⟩

theorem congr (h : Admits f Γ Δ) (hfg : ∀ v, Γ.Free v → g v = f v) : Admits g Γ Δ := by
  refine ⟨h.exists_scheme, h.exists_rule, fun x σ τ hσ hτ t ht => ?_⟩
  exact (h.instanceUnder x σ τ hσ hτ t ht).congr fun v hv hq => hfg v ⟨x, σ, hσ, hv, hq⟩

theorem agree (h : Admits f Γ Δ) (hΓ : Γ.Clean W n) (hfg : f.Agree n g) : Admits g Γ Δ :=
  h.congr fun v hv => hfg v (hΓ.below v (hΓ.free v hv))

theorem apply (h : Admits f Γ Δ) (hΓ : Γ.Clean W n) (hs : s.Threaded W n n₁) (hf : s.SolvedBy f) :
    Admits f (Γ.apply s) Δ := by
  refine ⟨fun x τ hτ => ?_, fun x τ hx => ?_, fun x σ' τ hx hτ t ht => ?_⟩
  · obtain ⟨σ, hσ⟩ := h.exists_scheme x τ hτ
    exact ⟨σ.apply s, getElem?_apply_iff.mpr ⟨σ, hσ, rfl⟩⟩
  · obtain ⟨σ, hσ, -⟩ := getElem?_apply_iff.mp hx
    exact h.exists_rule x σ hσ
  · obtain ⟨σ, hσ, rfl⟩ := getElem?_apply_iff.mp hx
    refine (Scheme.instanceUnder_apply hf (hΓ.not_mentions hs hσ)).mpr ?_
    exact h.instanceUnder x σ τ hσ hτ t ht

theorem insert (h : Admits f Γ Δ) {σ τ : Scheme} (hστ : ∀ t, τ.Instance t → σ.InstanceUnder f t)
    (x : String) : Admits f (Γ.insert x σ) (Δ.insert x τ) := by
  refine ⟨fun y ρ hy => ?_, fun y ρ hy => ?_, fun y ρ π hy hy' t ht => ?_⟩
  · rcases getElem?_insert_iff.mp hy with ⟨rfl, -⟩ | ⟨hxy, hy⟩
    · exact ⟨σ, getElem?_insert_iff.mpr (Or.inl ⟨rfl, rfl⟩)⟩
    · obtain ⟨ρ', hρ'⟩ := h.exists_scheme y ρ hy
      exact ⟨ρ', getElem?_insert_iff.mpr (Or.inr ⟨hxy, hρ'⟩)⟩
  · rcases getElem?_insert_iff.mp hy with ⟨rfl, -⟩ | ⟨hxy, hy⟩
    · exact ⟨τ, getElem?_insert_iff.mpr (Or.inl ⟨rfl, rfl⟩)⟩
    · obtain ⟨ρ', hρ'⟩ := h.exists_rule y ρ hy
      exact ⟨ρ', getElem?_insert_iff.mpr (Or.inr ⟨hxy, hρ'⟩)⟩
  · rcases getElem?_insert_iff.mp hy with ⟨rfl, rfl⟩ | ⟨hxy, hy⟩
    · rcases getElem?_insert_iff.mp hy' with ⟨-, rfl⟩ | ⟨hxx, -⟩
      · exact hστ t ht
      · exact absurd rfl hxx
    · rcases getElem?_insert_iff.mp hy' with ⟨hyx, -⟩ | ⟨-, hy'⟩
      · exact absurd hyx hxy
      · exact h.instanceUnder y ρ π hy hy' t ht

theorem bindTy (h : Admits f Γ Δ) (x : String) (t : Ty) :
    Admits f (Γ.bindTy x t) (Δ.insert x (.mono (t.assign f))) := by
  refine h.insert (fun u hu => Scheme.instanceUnder_mono_iff.mpr ?_) x
  rw [Scheme.instanceUnder_mono_iff.mp (Scheme.instance_iff.mp hu)]
  exact Ty.assign_var_self _

theorem bindAll (h : Admits f Γ Δ) (bs : List (String × Ty)) :
    Admits f (Γ.bindAll bs) (Δ.withVars (assignAll f bs)) := by
  induction bs generalizing Γ Δ with
  | nil => exact h
  | cons b bs ih => exact ih (h.bindTy b.1 b.2)

/-- A variable that `Γ` holds fast becomes a type whose variables `Δ` holds fast. -/
theorem free_of_free (h : Admits f Γ Δ) {v w : TyVar} (hv : Γ.Free v) (hw : w ∈ (f v).vars) :
    Δ.Free w := by
  obtain ⟨x, σ, hσ, hvb, hvq⟩ := hv
  obtain ⟨τ, hτ⟩ := h.exists_rule x σ hσ
  -- the instance that has no variables but those that are free in the scheme
  obtain ⟨θ, hθ⟩ := h.instanceUnder x σ τ hσ hτ _ (Scheme.instance_iff.mpr ⟨fun _ => .int, rfl⟩)
  have hmem : w ∈ (σ.body.assign (σ.choose θ f)).vars := by
    refine Ty.mem_vars_assign.mpr ⟨v, hvb, ?_⟩
    rwa [Scheme.choose, if_neg hvq]
  rw [← hθ] at hmem
  obtain ⟨u, hu, hwu⟩ := Ty.mem_vars_assign.mp hmem
  rw [Scheme.choose] at hwu
  split at hwu
  · simp [Ty.vars] at hwu
  · next huq =>
      obtain rfl : w = u := by simpa [Ty.vars] using hwu
      exact ⟨x, τ, hτ, hu, huq⟩

/-- What the value of a `let` generalizes to in the rules, it generalizes to in inference. -/
theorem generalize (h : Admits f Γ Δ) {τ : Scheme} (hτ : Δ.Generalizes (t.assign f) τ) (x : String) :
    Admits f (Γ.insert x (Γ.generalize t)) (Δ.insert x τ) := by
  refine h.insert (fun u hu => ?_) x
  obtain ⟨η, rfl⟩ := Scheme.instance_iff.mp hu
  refine ⟨fun v => (f v).assign (τ.choose η Ty.var), ?_⟩
  rw [hτ.body_eq, Ty.assign_assign]
  refine Ty.assign_congr fun v hv => ?_
  rw [Scheme.choose]
  split
  · rfl
  · next hq =>
      have hvΓ : Γ.Free v := by
        by_contra hvΓ
        exact hq (mem_quantified_generalize.mpr ⟨hv, fun hmem => hvΓ (free_iff.mpr hmem)⟩)
      refine Ty.assign_eq_self fun w hw => if_neg fun hwq => ?_
      exact ((hτ.mem_quantified w).mp hwq).2 (h.free_of_free hvΓ hw)

end Admits

end Env

end Polytype
