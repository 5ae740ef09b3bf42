/-
# Polytype.Proofs.Inference.Threaded — substitutions that a run threads from step to step.

A run starts with the variables `W` in use, all drawn before `n`, and draws the variables from `n` up to
`n'`.  The substitution that it has built by then is *threaded* (`Subst.Threaded`) when it is settled in
all of these.  What is still open are the variables that it does not bind (`scopeAfter`), and the next
step sees no others.  Hence the three facts on which hygiene, soundness and completeness rest: threaded
steps compose (`Threaded.comp`), the open variables of the composite are those of its last step
(`Threaded.scopeAfter_comp`), and an assignment solves the composite exactly when it solves both parts
(`Threaded.solvedBy_comp`).
-/
import Polytype.Env
import Polytype.Proofs.Typing.Rules
import Polytype.Proofs.Unification

namespace Polytype

/-- The variables in use after a run that has drawn those from `n` up to `n'` and has bound some. -/
def scopeAfter (W : Set TyVar) (n n' : TyVar) (s : Subst) : Set TyVar := live (grow W n n') s

/-- The substitution has come about while the variables from `n` up to `n'` were drawn, and mentions
only these and `W`. -/
structure Subst.Threaded (W : Set TyVar) (n n' : TyVar) (s : Subst) : Prop where
  below : Below W n
  le : n ≤ n'
  settled : s.Settled (grow W n n')

namespace Subst.Threaded

variable {W : Set TyVar} {n n₁ n₂ v : TyVar} {s u : Subst} {f : Assignment} {t a b : Ty}

theorem empty (hW : Below W n) (hn : n ≤ n₁) : Threaded W n n₁ ∅ :=
  ⟨hW, hn, Settled.empty _⟩

theorem below_grow (hs : Threaded W n n₁ s) : Below (grow W n n₁) n₁ := hs.below.grow hs.le

theorem below_scopeAfter (hs : Threaded W n n₁ s) : Below (scopeAfter W n n₁ s) n₁ :=
  hs.below_grow.mono (live_subset _ _) (Int.le_refl n₁)

theorem draw (hs : Threaded W n n₁ s) (hn : n₁ ≤ n₂) : Threaded W n n₂ s :=
  ⟨hs.below, Int.le_trans hs.le hn, hs.settled.mono (grow_mono_next W n hn)⟩

/-- What is drawn after a run is open. -/
theorem scopeAfter_draw (hs : Threaded W n n₁ s) (hn : n₁ ≤ n₂) :
    scopeAfter W n n₂ s = grow (scopeAfter W n n₁ s) n₁ n₂ := by
  rw [scopeAfter, scopeAfter, ← hs.settled.live_grow hs.below_grow, grow_grow W hs.le hn]

theorem scopeAfter_subset_draw (hs : Threaded W n n₁ s) (hn : n₁ ≤ n₂) :
    scopeAfter W n n₁ s ⊆ scopeAfter W n n₂ s := by
  rw [hs.scopeAfter_draw hn]
  exact subset_grow _ _ _

theorem mem_scopeAfter_draw (hs : Threaded W n n₁ s) (hv : n₁ ≤ v) (hv' : v < n₂) :
    v ∈ scopeAfter W n n₂ s := by
  rw [hs.scopeAfter_draw (Int.le_of_lt (Int.lt_of_le_of_lt hv hv'))]
  exact Or.inr ⟨hv, hv'⟩

theorem apply_within (hs : Threaded W n n₁ s) (ht : t.Within (grow W n n₁)) :
    (s.apply t).Within (scopeAfter W n n₁ s) :=
  hs.settled.apply_within ht

/-! ### One run after another -/

section Next

variable (hs : Threaded W n n₁ s) (hu : Threaded (scopeAfter W n n₁ s) n₁ n₂ u)
include hs hu

/-- The second step is settled in what the first one has left open. -/
theorem settled_next : u.Settled (live (grow W n n₂) s) := by
  have h := hu.settled
  rwa [← hs.scopeAfter_draw hu.le] at h

theorem comp : Threaded W n n₂ (u.comp s) :=
  ⟨hs.below, Int.le_trans hs.le hu.le, (hs.draw hu.le).settled.comp (hs.settled_next hu)⟩

theorem scopeAfter_comp : scopeAfter (scopeAfter W n n₁ s) n₁ n₂ u = scopeAfter W n n₂ (u.comp s) := by
  rw [scopeAfter, ← hs.scopeAfter_draw hu.le, scopeAfter, scopeAfter, live_comp]

theorem solvedBy_comp : (u.comp s).SolvedBy f ↔ s.SolvedBy f ∧ u.SolvedBy f :=
  (hs.settled_next hu).solvedBy_comp

/-- What was open stays open under the second step. -/
theorem within_comp (ht : t.Within (scopeAfter W n n₁ s)) :
    (u.apply t).Within (scopeAfter W n n₂ (u.comp s)) := by
  rw [← hs.scopeAfter_comp hu]
  exact hu.apply_within (ht.mono (subset_grow _ _ _))

end Next

/-- A run may be counted from an earlier state. -/
theorem of_grow (hW : Below W n) (hn : n ≤ n₁) (hs : Threaded (grow W n n₁) n₁ n₂ s) :
    Threaded W n n₂ s := by
  refine ⟨hW, Int.le_trans hn hs.le, ?_⟩
  rw [← grow_grow W hn hs.le]
  exact hs.settled

theorem scopeAfter_grow (hn : n ≤ n₁) (hs : Threaded (grow W n n₁) n₁ n₂ s) :
    scopeAfter (grow W n n₁) n₁ n₂ s = scopeAfter W n n₂ s := by
  rw [scopeAfter, scopeAfter, grow_grow W hn hs.le]

theorem unify (hs : Threaded W n n₁ s) (ha : a.Within (scopeAfter W n n₁ s))
    (hb : b.Within (scopeAfter W n n₁ s)) (h : Polytype.unify a b = .ok u) :
    Threaded (scopeAfter W n n₁ s) n₁ n₁ u := by
  refine ⟨hs.below_scopeAfter, Int.le_refl n₁, ?_⟩
  rw [grow_self]
  exact unify_settled h ha hb

end Subst.Threaded

/-- A run that had reached `s` when `n₁` was next has reached `s'` when `n₂` is next: more variables are
drawn, and what `s` says still holds. -/
structure Subst.Continues (W : Set TyVar) (n n₁ : TyVar) (s : Subst) (n₂ : TyVar) (s' : Subst) :
    Prop where
  le : n₁ ≤ n₂
  threaded : s'.Threaded W n n₂
  solvedBy : ∀ f, s'.SolvedBy f → s.SolvedBy f

namespace Subst.Continues

variable {W : Set TyVar} {n n₁ n₂ n₃ : TyVar} {s s' s'' u : Subst}

theorem refl (hs : s.Threaded W n n₁) : Continues W n n₁ s n₁ s :=
  ⟨Int.le_refl n₁, hs, fun _ h => h⟩

theorem trans (h : Continues W n n₁ s n₂ s') (h' : Continues W n n₂ s' n₃ s'') :
    Continues W n n₁ s n₃ s'' :=
  ⟨Int.le_trans h.le h'.le, h'.threaded, fun f hf => h.solvedBy f (h'.solvedBy f hf)⟩

theorem comp (hs : s.Threaded W n n₁) (hu : u.Threaded (scopeAfter W n n₁ s) n₁ n₂) :
    Continues W n n₁ s n₂ (u.comp s) :=
  ⟨hu.le, hs.comp hu, fun _ hf => ((hs.solvedBy_comp hu).mp hf).1⟩

end Subst.Continues

/-! ## Environments -/

theorem Subst.image_without {s : Subst} {vs : VarSet} {v : TyVar} :
    (s.without vs).image v = if v ∈ vs then .var v else s.image v := by
  by_cases hv : v ∈ vs
  · simp [image, without, Std.ExtTreeMap.getElem?_filter, hv]
  · cases h : s[v]? with
    | none => simp [image, without, Std.ExtTreeMap.getElem?_filter, hv, h]
    | some t => simp [image, without, Std.ExtTreeMap.getElem?_filter, hv, h, Option.filter]

namespace Env

variable {W W' : Set TyVar} {Γ : Env} {s : Subst}

theorem free_iff {v : TyVar} : Γ.Free v ↔ v ∈ Γ.freeVars := by
  rw [mem_freeVars]
  simp only [Free, Scheme.mem_freeVars]

/-- The variables that are free in the environment are in use. -/
def FreeIn (W : Set TyVar) (Γ : Env) : Prop := ∀ v, Γ.Free v → v ∈ W

theorem FreeIn.mono (h : Γ.FreeIn W) (hW : W ⊆ W') : Γ.FreeIn W' := fun v hv => hW (h v hv)

theorem freeIn_empty (W : Set TyVar) : FreeIn W ∅ := by
  rintro v ⟨x, σ, hx, -⟩
  simp at hx

theorem getElem?_insert_iff {x y : String} {σ τ : Scheme} :
    (Γ.insert x σ)[y]? = some τ ↔ x = y ∧ σ = τ ∨ x ≠ y ∧ Γ[y]? = some τ := by
  simp only [Std.ExtTreeMap.getElem?_insert, Std.LawfulEqCmp.compare_eq_iff_eq]
  by_cases h : x = y
  · simp [h]
  · simp [h]

theorem getElem?_apply_iff {x : String} {τ : Scheme} :
    (Γ.apply s)[x]? = some τ ↔ ∃ σ, Γ[x]? = some σ ∧ σ.apply s = τ := by
  simp [apply, Std.ExtTreeMap.getElem?_map]

theorem FreeIn.insert (h : Γ.FreeIn W) {x : String} {σ : Scheme}
    (hσ : ∀ v ∈ σ.body.vars, v ∉ σ.quantified → v ∈ W) : FreeIn W (Γ.insert x σ) := by
  rintro v ⟨y, τ, hy, hv, hq⟩
  rcases getElem?_insert_iff.mp hy with ⟨-, rfl⟩ | ⟨-, hy⟩
  · exact hσ v hv hq
  · exact h v ⟨y, τ, hy, hv, hq⟩

theorem FreeIn.bindTy (h : Γ.FreeIn W) {t : Ty} (ht : t.Within W) (x : String) :
    (Γ.bindTy x t).FreeIn W :=
  h.insert fun v hv _ => ht v hv

theorem FreeIn.bindAll (h : Γ.FreeIn W) {bs : List (String × Ty)} (hbs : ∀ b ∈ bs, b.2.Within W) :
    (Γ.bindAll bs).FreeIn W := by
  induction bs generalizing Γ with
  | nil => exact h
  | cons b bs ih =>
      obtain ⟨hb, hbs⟩ := List.forall_mem_cons.mp hbs
      exact ih (h.bindTy hb b.1) hbs

/-- Generalization leaves free what the environment leaves free, and nothing else. -/
theorem FreeIn.generalize (h : Γ.FreeIn W) (x : String) (t : Ty) :
    FreeIn W (Γ.insert x (Γ.generalize t)) := by
  refine h.insert fun v hv hq => h v (free_iff.mpr ?_)
  by_contra hfree
  exact hq (mem_quantified_generalize.mpr ⟨hv, hfree⟩)

theorem FreeIn.apply (h : Γ.FreeIn W) (hs : s.Settled W) :
    (Γ.apply s).FreeIn (live W s) := by
  rintro v ⟨x, τ, hx, hv, hq⟩
  obtain ⟨σ, hσ, rfl⟩ := getElem?_apply_iff.mp hx
  obtain ⟨w, hw, hv⟩ := Subst.mem_vars_apply.mp hv
  rw [Subst.image_without] at hv
  split at hv
  · next hwq =>
      -- a quantified variable is left alone, so it cannot be free in the result
      obtain rfl : v = w := by simpa [Ty.vars] using hv
      exact absurd hwq hq
  · next hwq =>
      have hwW : (Ty.var w).Within W := Ty.within_var.mpr (h w ⟨x, σ, hσ, hw, hwq⟩)
      exact hs.apply_within hwW v hv

/-- After a run the environment speaks about what is open. -/
theorem FreeIn.apply_threaded {n n' : TyVar} (h : Γ.FreeIn W) (hs : s.Threaded W n n') :
    (Γ.apply s).FreeIn (scopeAfter W n n' s) :=
  (h.mono (subset_grow W n n')).apply hs.settled

end Env

end Polytype
