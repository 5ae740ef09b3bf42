/-
# Polytype.Proofs.Unification.Symmetry — unifying two types the other way round.

Exchanging the sides of an equation between two variables exchanges which of them is bound, and from then on
the two runs see different types.  They do not see very different ones: where one run has put `w` for `v`, the other
has put `v` for `w`, so the types of the one become those of the other by exchanging the two variables.  The runs
are therefore compared up to a renaming that every such step composes with one exchange (`bindVar_flipped`), and
`unifyAll_mirror` follows both runs to their end.

They end alike (`Mirrored`): with substitutions that are the same up to the renaming, or with the same
error, in which the types have changed sides.
-/
import Mathlib.Data.List.Zip
import Mathlib.Logic.Equiv.Basic
import Polytype.Proofs.Unification

namespace Polytype

/-! ## Renaming -/

namespace Ty

/-- Renames the variables of a type. -/
def rename (ρ : Equiv.Perm TyVar) (t : Ty) : Ty := t.assign fun v => .var (ρ v)

variable {ρ : Equiv.Perm TyVar} {t : Ty}

@[simp]
theorem rename_var (v : TyVar) : (Ty.var v).rename ρ = .var (ρ v) := rfl

@[simp]
theorem rename_refl (t : Ty) : t.rename (Equiv.refl TyVar) = t := assign_var_self t

@[simp]
theorem head?_rename (t : Ty) : (t.rename ρ).head? = t.head? := by
  cases t <;> simp [rename, head?]

@[simp]
theorem children_rename (t : Ty) : (t.rename ρ).children = t.children.map (rename ρ) := by
  cases t <;> simp [rename, children]

theorem rename_eq_var {v : TyVar} : t.rename ρ = .var (ρ v) ↔ t = .var v := by
  cases t <;> simp [rename]

theorem mem_vars_rename {v : TyVar} : ρ v ∈ (t.rename ρ).vars ↔ v ∈ t.vars := by
  rw [rename, mem_vars_assign]
  simp [vars]

end Ty

/-- The first substitution does to renamed types what the second one does before another renaming. -/
def Subst.Intertwines (ρ ρ' : Equiv.Perm TyVar) (s s' : Subst) : Prop :=
  ∀ t : Ty, s'.apply (t.rename ρ) = (s.apply t).rename ρ'

namespace Subst.Intertwines

variable {ρ ρ₁ ρ₂ : Equiv.Perm TyVar} {s s' u u' : Subst}

/-- It is enough to look at variables. -/
theorem of_image (h : ∀ v, s'.image (ρ v) = (s.image v).rename ρ₁) : Intertwines ρ ρ₁ s s' := by
  intro t
  rw [Ty.rename, Ty.rename, Subst.apply_eq_assign, Subst.apply_eq_assign, Ty.assign_assign, Ty.assign_assign]
  exact Ty.assign_congr fun v _ => h v

theorem comp (hs : Intertwines ρ ρ₁ s s') (hu : Intertwines ρ₁ ρ₂ u u') :
    Intertwines ρ ρ₂ (u.comp s) (u'.comp s') := by
  intro t
  rw [Subst.apply_comp, Subst.apply_comp, hs t, hu]

end Subst.Intertwines

/-! ## Outcomes up to renaming -/

/-- Two outcomes of unification, the second of a run on types that are renamed by `ρ` and have changed sides. -/
inductive Mirrored (ρ : Equiv.Perm TyVar) : Except TypeError Subst → Except TypeError Subst → Prop
  | solved {s s' : Subst} (ρ' : Equiv.Perm TyVar) : Subst.Intertwines ρ ρ' s s' → Mirrored ρ (.ok s) (.ok s')
  | mismatch (ρ' : Equiv.Perm TyVar) (l r : Ty) :
      Mirrored ρ (Fault.mismatch l r).raise (Fault.mismatch (r.rename ρ') (l.rename ρ')).raise
  | occursCheck (ρ' : Equiv.Perm TyVar) (v : TyVar) (t : Ty) :
      Mirrored ρ (Fault.occursCheck v t).raise (Fault.occursCheck (ρ' v) (t.rename ρ')).raise

/-- Renames both sides of every equation and exchanges them. -/
def Equations.mirror (ρ : Equiv.Perm TyVar) (eqs : Equations) : Equations :=
  eqs.map fun e => (e.2.rename ρ, e.1.rename ρ)

namespace Equations

variable {ρ ρ' : Equiv.Perm TyVar}

theorem mirror_cons (a b : Ty) (eqs : Equations) :
    mirror ρ ((a, b) :: eqs) = (b.rename ρ, a.rename ρ) :: mirror ρ eqs := rfl

theorem mirror_children (a b : Ty) (eqs : Equations) :
    mirror ρ (a.children.zip b.children ++ eqs) =
      (b.rename ρ).children.zip (a.rename ρ).children ++ mirror ρ eqs := by
  rw [mirror, List.map_append, ← List.zip_swap, List.map_map, Ty.children_rename, Ty.children_rename,
    List.zip_map]
  rfl

/-- Bindings that correspond leave equations that correspond. -/
theorem mirror_apply {s s' : Subst} (h : Subst.Intertwines ρ ρ' s s') (eqs : Equations) :
    mirror ρ' (apply s eqs) = apply s' (mirror ρ eqs) := by
  rw [mirror, apply, apply, mirror, List.map_map, List.map_map]
  refine List.map_congr_left fun e _ => ?_
  simp only [Function.comp_apply, h e.1, h e.2]

end Equations

/-! ## Binding a variable -/

section Bind

variable {ρ : Equiv.Perm TyVar}

theorem bindVar_rename (v : TyVar) (t : Ty) :
    Mirrored ρ (bindVar v t) (bindVar (ρ v) (t.rename ρ)) := by
  have hoccurs : (t.rename ρ).occurs (ρ v) = t.occurs v := by
    rw [Bool.eq_iff_iff, Ty.occurs_iff, Ty.occurs_iff, Ty.mem_vars_rename]
  simp only [bindVar, Ty.rename_eq_var, hoccurs]
  split
  · exact .solved ρ (.of_image fun w => by simp)
  · split
    · exact .occursCheck ρ v t
    · refine .solved ρ (.of_image fun w => ?_)
      simp only [Subst.image_single, EmbeddingLike.apply_eq_iff_eq]
      split <;> rfl

theorem bindVar_var {v w : TyVar} (h : w ≠ v) : bindVar v (.var w) = .ok (.single v (.var w)) := by
  simp [bindVar, Ty.occurs, Ty.vars, h, h.symm]

/-- Of two variables either one may be bound to the other: exchanging them turns the one binding into the
other. -/
theorem bindVar_flipped (v w : TyVar) :
    Mirrored ρ (bindVar v (.var w)) (bindVar (ρ w) (.var (ρ v))) := by
  by_cases hwv : w = v
  · subst hwv
    exact bindVar_rename w (.var w)
  · have hne : ρ v ≠ ρ w := fun h => hwv (ρ.injective h).symm
    rw [bindVar_var hwv, bindVar_var hne]
    refine .solved (ρ.trans (Equiv.swap (ρ v) (ρ w))) (.of_image fun x => ?_)
    rw [Subst.image_single, Subst.image_single]
    by_cases hxv : x = v
    · subst hxv
      simp [hne]
    by_cases hxw : x = w
    · subst hxw
      simp [hxv]
    · have hfixed : Equiv.swap (ρ v) (ρ w) (ρ x) = ρ x :=
        Equiv.swap_apply_of_ne_of_ne (fun h => hxv (ρ.injective h)) fun h => hxw (ρ.injective h)
      simp [hxv, hxw, hfixed]

end Bind

/-! ## Two runs side by side -/

section Runs

variable {ρ : Equiv.Perm TyVar}

/-- After bindings that correspond, two runs on the equations that are left end alike if they do so for every
renaming. -/
theorem Mirrored.bind {x x' : Except TypeError Subst} (h : Mirrored ρ x x') (eqs : Equations)
    (ih : ∀ s, x = .ok s → ∀ ρ', Mirrored ρ' (unifyAll (Equations.apply s eqs))
      (unifyAll ((Equations.apply s eqs).mirror ρ'))) :
    Mirrored ρ (x >>= fun s => (unifyAll (Equations.apply s eqs)).map (·.comp s))
      (x' >>= fun s => (unifyAll (Equations.apply s (eqs.mirror ρ))).map (·.comp s)) := by
  cases h with
  | mismatch ρ' l r => exact .mismatch ρ' l r
  | occursCheck ρ' v t => exact .occursCheck ρ' v t
  | @solved s s' ρ' hs =>
      have hrest := ih s rfl ρ'
      rw [Equations.mirror_apply hs] at hrest
      show Mirrored ρ ((unifyAll (Equations.apply s eqs)).map (·.comp s))
        ((unifyAll (Equations.apply s' (eqs.mirror ρ))).map (·.comp s'))
      generalize unifyAll (Equations.apply s eqs) = y, unifyAll (Equations.apply s' (eqs.mirror ρ)) = y' at hrest
      cases hrest with
      | solved ρ₂ hu => exact .solved ρ₂ (hs.comp hu)
      | mismatch ρ₂ l r => exact .mismatch ρ₂ l r
      | occursCheck ρ₂ v t => exact .occursCheck ρ₂ v t

/-- Where one run binds the variable on the left to the type on the right, the other one makes a binding that
corresponds. -/
theorem mirrored_var_left (v : TyVar) (b : Ty) (eqs : Equations)
    (ih : ∀ s, bindVar v b = .ok s → ∀ ρ', Mirrored ρ' (unifyAll (Equations.apply s eqs))
      (unifyAll ((Equations.apply s eqs).mirror ρ'))) :
    Mirrored ρ (bindVar v b >>= fun s => (unifyAll (Equations.apply s eqs)).map (·.comp s))
      (unifyAll ((b.rename ρ, .var (ρ v)) :: eqs.mirror ρ)) := by
  by_cases hb : b.head? = none
  · obtain ⟨w, rfl⟩ := Ty.head?_eq_none_iff.mp hb
    rw [Ty.rename_var, unifyAll_var_left]
    exact (bindVar_flipped v w).bind eqs ih
  · rw [unifyAll_var_right (by rwa [Ty.head?_rename])]
    exact (bindVar_rename v b).bind eqs ih

/-- Equations with their sides exchanged and their variables renamed have the same outcome, up to a renaming. -/
theorem unifyAll_mirror (eqs : Equations) (ρ : Equiv.Perm TyVar) :
    Mirrored ρ (unifyAll eqs) (unifyAll (eqs.mirror ρ)) := by
  -- in order: a variable on the left, one on the right, equal heads, different heads
  fun_induction unifyAll eqs generalizing ρ with
  | case1 =>
      rw [Equations.mirror, List.map_nil, unifyAll]
      exact .solved ρ (.of_image fun v => by simp)
  | case2 v b eqs e he =>
      have hleft := mirrored_var_left (ρ := ρ) v b eqs fun s hs => by simp [he] at hs
      rwa [he] at hleft
  | case3 v b eqs s hs ih =>
      have hleft := mirrored_var_left (ρ := ρ) v b eqs fun s' hs' => by
        obtain rfl := Except.ok.inj (hs.symm.trans hs')
        exact ih
      rwa [hs] at hleft
  | case4 a v eqs ha e he =>
      have hright := (bindVar_rename (ρ := ρ) v a).bind eqs fun s hs => by simp [he] at hs
      rw [Equations.mirror_cons, Ty.rename_var, unifyAll_var_left]
      rwa [he] at hright
  | case5 a v eqs ha s hs ih =>
      have hright := (bindVar_rename (ρ := ρ) v a).bind eqs fun s' hs' => by
        obtain rfl := Except.ok.inj (hs.symm.trans hs')
        exact ih
      rw [Equations.mirror_cons, Ty.rename_var, unifyAll_var_left]
      rwa [hs] at hright
  | case6 a b eqs ha hb h ih =>
      have ha := head?_ne_none_of_not_var ha
      have hb := head?_ne_none_of_not_var hb
      rw [Equations.mirror_cons, unifyAll_heads (by rwa [Ty.head?_rename]) (by rwa [Ty.head?_rename]),
        Ty.head?_rename, Ty.head?_rename, if_pos h.symm, ← Equations.mirror_children]
      exact ih ρ
  | case7 a b eqs ha hb h =>
      have ha := head?_ne_none_of_not_var ha
      have hb := head?_ne_none_of_not_var hb
      rw [Equations.mirror_cons, unifyAll_heads (by rwa [Ty.head?_rename]) (by rwa [Ty.head?_rename]),
        Ty.head?_rename, Ty.head?_rename, if_neg (Ne.symm h)]
      exact .mismatch ρ a b

end Runs

/-- **Unification is symmetric.** Either both ways round give a substitution, and the two are the same up to a
renaming of variables; or both fail, with a mismatch between types that have changed sides, or both with an
occurs check. -/
theorem unify_symmetric (a b : Ty) :
    (∃ (s s' : Subst) (ρ : Equiv.Perm TyVar), unify a b = .ok s ∧ unify b a = .ok s' ∧
      ∀ t, s'.apply t = (s.apply t).rename ρ) ∨
    (∃ (l r : Ty) (ρ : Equiv.Perm TyVar), unify a b = (Fault.mismatch l r).raise ∧
      unify b a = (Fault.mismatch (r.rename ρ) (l.rename ρ)).raise) ∨
    ∃ (v : TyVar) (t : Ty) (ρ : Equiv.Perm TyVar), unify a b = (Fault.occursCheck v t).raise ∧
      unify b a = (Fault.occursCheck (ρ v) (t.rename ρ)).raise := by
  have h := unifyAll_mirror [(a, b)] (Equiv.refl TyVar)
  rw [Equations.mirror_cons, Ty.rename_refl, Ty.rename_refl] at h
  change Mirrored _ (unify a b) (unify b a) at h
  generalize unify a b = x, unify b a = x' at h
  cases h with
  | @solved s s' ρ hs => exact Or.inl ⟨s, s', ρ, rfl, rfl, fun t => by simpa using hs t⟩
  | mismatch ρ l r => exact Or.inr (Or.inl ⟨l, r, ρ, rfl, rfl⟩)
  | occursCheck ρ v t => exact Or.inr (Or.inr ⟨v, t, ρ, rfl, rfl⟩)

end Polytype
