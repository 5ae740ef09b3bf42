/-
# Polytype.Proofs.Settled — which variables a substitution touches.

Inference builds its substitution step by step, each step after the ones before it.  Composites of
substitutions are badly behaved in general: they need not be idempotent, and what solves a composite
need not solve its parts.  Both hold when every step leaves the variables alone that earlier steps
have bound, and this file says so once.

`Settled W s` says that `s` is idempotent and mentions only variables of `W`.  The variables of `W`
that `s` has not bound are *live* (`live W s`): a type that `s` has been applied to has live variables
only, so the next step, which looks at such types, is settled in `live W s`.  `Settled.comp` says that
then the composite is settled in `W`, and `Settled.solvedBy_comp` that its solutions are the common
solutions of its parts.  Fresh variables enlarge the scope (`grow`).
-/
import Mathlib.Data.Set.Basic
import Polytype.Proofs.Assignment

namespace Polytype

namespace Subst

/-! ## The bindings of a composite -/

theorem image_of_getElem? {s : Subst} {v : TyVar} {t : Ty} (h : s[v]? = some t) :
    s.image v = t := by
  rw [image, h, Option.getD_some]

theorem image_of_notMem {s : Subst} {v : TyVar} (h : v ∉ s) : s.image v = .var v := by
  rw [image, Std.ExtTreeMap.getElem?_eq_none h, Option.getD_none]

theorem mem_of_getElem? {s : Subst} {v : TyVar} {t : Ty} (h : s[v]? = some t) : v ∈ s := by
  rw [Std.ExtTreeMap.mem_iff_isSome_getElem?, h]
  rfl

theorem mem_comp {s₂ s₁ : Subst} {v : TyVar} : v ∈ s₂.comp s₁ ↔ v ∈ s₁ ∨ v ∈ s₂ := by
  rw [comp, Std.ExtTreeMap.mem_union_iff, Std.ExtTreeMap.mem_map, or_comm]

theorem mem_single {v w : TyVar} {t : Ty} : w ∈ single v t ↔ w = v := by
  rw [single, Std.ExtTreeMap.mem_insert, Std.LawfulEqCmp.compare_eq_iff_eq, eq_comm]
  simp

/-! ## Mentioned variables and idempotence -/

/-- A variable is mentioned by a substitution that binds it or that puts it into an image. -/
def Mentions (s : Subst) (v : TyVar) : Prop := v ∈ s ∨ ∃ w ∈ s, v ∈ (s.image w).vars

/-- No bound variable occurs in an image. -/
def Idempotent (s : Subst) : Prop := ∀ v ∈ s, ∀ w ∈ s, v ∉ (s.image w).vars

theorem idempotent_empty : Idempotent ∅ := fun v hv => absurd hv (by simp)

theorem not_mentions_empty (v : TyVar) : ¬ Mentions ∅ v := by
  rintro (h | ⟨w, hw, -⟩)
  · exact absurd h (by simp)
  · exact absurd hw (by simp)

theorem mentions_single {v w : TyVar} {t : Ty} :
    (single v t).Mentions w ↔ w = v ∨ w ∈ t.vars := by
  simp only [Mentions, mem_single, exists_eq_left, image_single, if_true]

theorem idempotent_single {v : TyVar} {t : Ty} (h : v ∉ t.vars) : (single v t).Idempotent := by
  intro w hw x hx
  rw [mem_single] at hw hx
  subst hw hx
  rwa [image_single, if_pos rfl]

/-- A variable of an image is an unbound variable of the type, or it stands in an image. -/
theorem mem_vars_apply_cases {s : Subst} {t : Ty} {v : TyVar} (h : v ∈ (s.apply t).vars) :
    (v ∈ t.vars ∧ v ∉ s) ∨ ∃ w ∈ s, w ∈ t.vars ∧ v ∈ (s.image w).vars := by
  obtain ⟨w, hw, hv⟩ := mem_vars_apply.mp h
  by_cases hs : w ∈ s
  · exact Or.inr ⟨w, hs, hw, hv⟩
  · rw [image_of_notMem hs] at hv
    obtain rfl : v = w := by simpa [Ty.vars] using hv
    exact Or.inl ⟨hw, hs⟩

/-- An idempotent substitution leaves none of its variables in a type. -/
theorem Idempotent.notMem_of_mem_vars_apply {s : Subst} (hs : s.Idempotent) {t : Ty} {v : TyVar}
    (h : v ∈ (s.apply t).vars) : v ∉ s := by
  rcases mem_vars_apply_cases h with ⟨-, hv⟩ | ⟨w, hw, -, hv⟩
  · exact hv
  · exact fun hvs => hs v hvs w hw hv

/-- Whatever is assigned after an idempotent substitution makes a solution of it. -/
theorem Idempotent.solvedBy {s : Subst} (hs : s.Idempotent) (g : Assignment) :
    s.SolvedBy fun v => (s.image v).assign g := by
  intro v
  by_cases hv : v ∈ s
  · rw [← assign_apply]
    congr 1
    rw [apply_eq_assign]
    exact Ty.assign_eq_self fun w hw => image_of_notMem fun hws => hs w hws v hv hw
  · rw [image_of_notMem hv, Ty.assign_var]

/-- Assignments that agree on what a substitution mentions solve it alike. -/
theorem SolvedBy.congr {s : Subst} {f g : Assignment} (h : s.SolvedBy f)
    (hfg : ∀ v, s.Mentions v → g v = f v) : s.SolvedBy g := by
  intro v
  by_cases hv : v ∈ s
  · rw [hfg v (Or.inl hv), ← h v]
    exact Ty.assign_congr fun w hw => hfg w (Or.inr ⟨v, hv, hw⟩)
  · rw [image_of_notMem hv, Ty.assign_var]

/-! ## Composites whose second part leaves the first one alone -/

section Disjoint

variable {s u : Subst}

theorem image_comp_of_notMem {v : TyVar} (h : v ∉ s) : (u.comp s).image v = u.image v := by
  rw [image_comp, image_of_notMem h, apply_var]

/-- A composite mentions only what its parts mention. -/
theorem Mentions.of_comp {v : TyVar} (h : (u.comp s).Mentions v) : s.Mentions v ∨ u.Mentions v := by
  rcases h with h | ⟨w, hw, hv⟩
  · exact (mem_comp.mp h).imp Or.inl Or.inl
  · by_cases hws : w ∈ s
    · rw [image_comp] at hv
      rcases mem_vars_apply_cases hv with ⟨hv, -⟩ | ⟨x, hx, -, hv⟩
      · exact Or.inl (Or.inr ⟨w, hws, hv⟩)
      · exact Or.inr (Or.inr ⟨x, hx, hv⟩)
    · rw [image_comp_of_notMem hws] at hv
      exact Or.inr (Or.inr ⟨w, (mem_comp.mp hw).resolve_left hws, hv⟩)

theorem Idempotent.comp (hs : s.Idempotent) (hu : u.Idempotent)
    (hdis : ∀ v ∈ s, ¬ u.Mentions v) : (u.comp s).Idempotent := by
  intro v hv w hw hmem
  by_cases hws : w ∈ s
  · rw [image_comp] at hmem
    have hvs : v ∈ s := (mem_comp.mp hv).resolve_right (hu.notMem_of_mem_vars_apply hmem)
    rcases mem_vars_apply_cases hmem with ⟨h, -⟩ | ⟨x, hx, -, h⟩
    · exact hs v hvs w hws h
    · exact hdis v hvs (Or.inr ⟨x, hx, h⟩)
  · have hwu : w ∈ u := (mem_comp.mp hw).resolve_left hws
    rw [image_comp_of_notMem hws] at hmem
    rcases mem_comp.mp hv with hvs | hvu
    · exact hdis v hvs (Or.inr ⟨w, hwu, hmem⟩)
    · exact hu v hvu w hwu hmem

/-- The solutions of such a composite are the common solutions of its parts. -/
theorem solvedBy_comp_of_disjoint (hdis : ∀ v ∈ s, v ∉ u) {f : Assignment} :
    (u.comp s).SolvedBy f ↔ s.SolvedBy f ∧ u.SolvedBy f := by
  refine ⟨fun h => ?_, fun h => h.2.comp h.1⟩
  have hu : u.SolvedBy f := by
    intro v
    by_cases hv : v ∈ s
    · -- the second part does not bind what the first one has bound
      rw [image_of_notMem (hdis v hv), Ty.assign_var]
    · rw [← image_comp_of_notMem hv, h v]
  refine ⟨fun v => ?_, hu⟩
  rw [← hu.assign_apply, ← image_comp, h v]

end Disjoint

theorem comp_assoc (s₃ s₂ s₁ : Subst) : (s₃.comp s₂).comp s₁ = s₃.comp (s₂.comp s₁) := by
  refine Std.ExtTreeMap.ext_getElem? fun v => ?_
  simp only [comp, Std.ExtTreeMap.getElem?_union, Std.ExtTreeMap.getElem?_map]
  cases s₁[v]? with
  | some t => exact congrArg some (apply_comp s₃ s₂ t)
  | none =>
      cases s₂[v]? with
      | some t => rfl
      | none => rfl

end Subst

/-! ## Scopes -/

/-- A type whose variables are all in scope. -/
def Ty.Within (W : Set TyVar) (t : Ty) : Prop := ∀ v ∈ t.vars, v ∈ W

/-- The variables that a substitution has not bound. -/
def live (W : Set TyVar) (s : Subst) : Set TyVar := {v | v ∈ W ∧ v ∉ s}

/-- The variables in use, with those drawn from `n` up to `n'`. -/
def grow (W : Set TyVar) (n n' : TyVar) : Set TyVar := {v | v ∈ W ∨ n ≤ v ∧ v < n'}

/-- All variables in use have been drawn before `n`. -/
def Below (W : Set TyVar) (n : TyVar) : Prop := ∀ v ∈ W, v < n

theorem mem_live {W : Set TyVar} {s : Subst} {v : TyVar} : v ∈ live W s ↔ v ∈ W ∧ v ∉ s := Iff.rfl

theorem mem_grow {W : Set TyVar} {n n' v : TyVar} : v ∈ grow W n n' ↔ v ∈ W ∨ n ≤ v ∧ v < n' :=
  Iff.rfl

theorem live_subset (W : Set TyVar) (s : Subst) : live W s ⊆ W := fun _ h => h.1

theorem subset_grow (W : Set TyVar) (n n' : TyVar) : W ⊆ grow W n n' := fun _ h => Or.inl h

theorem grow_subset {W W' : Set TyVar} (h : W ⊆ W') (n n' : TyVar) : grow W n n' ⊆ grow W' n n' :=
  fun _ hv => hv.imp_left fun hw => h hw

theorem grow_mono_next (W : Set TyVar) (n : TyVar) {m m' : TyVar} (h : m ≤ m') :
    grow W n m ⊆ grow W n m' := fun _ hv => hv.imp_right fun hv => ⟨hv.1, Int.lt_of_lt_of_le hv.2 h⟩

@[simp]
theorem grow_self (W : Set TyVar) (n : TyVar) : grow W n n = W := by
  ext v
  rw [mem_grow]
  refine ⟨fun h => h.resolve_right fun hv => ?_, Or.inl⟩
  exact absurd hv.2 (Int.not_lt.mpr hv.1)

theorem grow_grow (W : Set TyVar) {n n' n'' : TyVar} (h : n ≤ n') (h' : n' ≤ n'') :
    grow (grow W n n') n' n'' = grow W n n'' := by
  ext v
  simp only [mem_grow]
  constructor
  · rintro ((hv | hv) | hv)
    · exact Or.inl hv
    · exact Or.inr ⟨hv.1, Int.lt_of_lt_of_le hv.2 h'⟩
    · exact Or.inr ⟨Int.le_trans h hv.1, hv.2⟩
  · rintro (hv | hv)
    · exact Or.inl (Or.inl hv)
    · by_cases hlt : v < n'
      · exact Or.inl (Or.inr ⟨hv.1, hlt⟩)
      · exact Or.inr ⟨Int.not_lt.mp hlt, hv.2⟩

theorem Below.grow {W : Set TyVar} {n n' : TyVar} (h : Below W n) (hn : n ≤ n') :
    Below (Polytype.grow W n n') n' := by
  rintro v (hv | hv)
  · exact Int.lt_of_lt_of_le (h v hv) hn
  · exact hv.2

theorem below_grow_empty {n n' : TyVar} : Below (grow ∅ n n') n' :=
  fun _ hv => (hv.resolve_left id).2

theorem Below.mono {W W' : Set TyVar} {n n' : TyVar} (h : Below W n) (hW : W' ⊆ W) (hn : n ≤ n') :
    Below W' n' := fun v hv => Int.lt_of_lt_of_le (h v (hW hv)) hn

namespace Ty

theorem Within.mono {W W' : Set TyVar} {t : Ty} (h : t.Within W) (hW : W ⊆ W') : t.Within W' :=
  fun v hv => hW (h v hv)

theorem within_prim (W : Set TyVar) (p : Prim) : (Ty.prim p).Within W :=
  fun v hv => absurd hv (by simp [vars])

theorem within_var {W : Set TyVar} {v : TyVar} : (Ty.var v).Within W ↔ v ∈ W := by
  simp [Within, vars]

theorem within_fn {W : Set TyVar} {a b : Ty} :
    (Ty.fn a b).Within W ↔ a.Within W ∧ b.Within W := by
  simp only [Within, mem_vars_fn, or_imp, forall_and]

theorem within_tuple {W : Set TyVar} {ts : List Ty} :
    (Ty.tuple ts).Within W ↔ ∀ t ∈ ts, t.Within W := by
  simp only [Within, mem_vars_tuple, forall_exists_index, and_imp]
  exact ⟨fun h t ht v hv => h v t ht hv, fun h v t ht hv => h t ht v hv⟩

theorem within_sum {W : Set TyVar} {name : String} {ts : List Ty} :
    (Ty.sum name ts).Within W ↔ ∀ t ∈ ts, t.Within W := by
  simp only [Within, mem_vars_sum, forall_exists_index, and_imp]
  exact ⟨fun h t ht v hv => h v t ht hv, fun h v t ht hv => h t ht v hv⟩

theorem within_record {W : Set TyVar} {fs : List (String × Ty)} :
    (Ty.record fs).Within W ↔ ∀ g ∈ fs, g.2.Within W := by
  simp only [Within, mem_vars_record, forall_exists_index, and_imp]
  exact ⟨fun h g hg v hv => h v g hg hv, fun h v g hg hv => h g hg v hv⟩

end Ty

/-- The two assignments give the same types to the variables drawn before `n`. -/
def Assignment.Agree (n : TyVar) (f g : Assignment) : Prop := ∀ v, v < n → g v = f v

namespace Assignment.Agree

variable {n n' : TyVar} {f g h : Assignment}

theorem refl (n : TyVar) (f : Assignment) : f.Agree n f := fun _ _ => rfl

theorem mono (hfg : f.Agree n' g) (hn : n ≤ n') : f.Agree n g :=
  fun v hv => hfg v (Int.lt_of_lt_of_le hv hn)

theorem trans (hfg : f.Agree n g) (hn : n ≤ n') (hgh : g.Agree n' h) : f.Agree n h :=
  fun v hv => (hgh.mono hn v hv).trans (hfg v hv)

theorem assign_eq {W : Set TyVar} (hfg : f.Agree n g) (hW : Below W n) {t : Ty} (ht : t.Within W) :
    t.assign g = t.assign f :=
  Ty.assign_congr fun v hv => hfg v (hW v (ht v hv))

end Assignment.Agree

/-! ## Settled substitutions -/

/-- An idempotent substitution of variables in scope by types in scope. -/
structure Subst.Settled (W : Set TyVar) (s : Subst) : Prop where
  idempotent : s.Idempotent
  within : ∀ v, s.Mentions v → v ∈ W

namespace Subst.Settled

variable {W W' : Set TyVar} {s u : Subst}

theorem empty (W : Set TyVar) : Settled W ∅ :=
  ⟨idempotent_empty, fun v h => absurd h (not_mentions_empty v)⟩

theorem mono (h : s.Settled W) (hW : W ⊆ W') : s.Settled W' :=
  ⟨h.idempotent, fun v hv => hW (h.within v hv)⟩

theorem apply_within (hs : s.Settled W) {t : Ty} (ht : t.Within W) :
    (s.apply t).Within (live W s) := by
  intro v hv
  refine ⟨?_, hs.idempotent.notMem_of_mem_vars_apply hv⟩
  rcases mem_vars_apply_cases hv with ⟨h, -⟩ | ⟨w, hw, -, h⟩
  · exact ht v h
  · exact hs.within v (Or.inr ⟨w, hw, h⟩)

/-- A step that is settled in what is live touches nothing that is bound already. -/
theorem disjoint (hu : u.Settled (live W s)) : ∀ v ∈ s, ¬ u.Mentions v :=
  fun v hv h => (hu.within v h).2 hv

theorem comp (hs : s.Settled W) (hu : u.Settled (live W s)) : (u.comp s).Settled W := by
  refine ⟨hs.idempotent.comp hu.idempotent hu.disjoint, fun v hv => ?_⟩
  rcases hv.of_comp with h | h
  · exact hs.within v h
  · exact (hu.within v h).1

theorem solvedBy_comp (hu : u.Settled (live W s)) {f : Assignment} :
    (u.comp s).SolvedBy f ↔ s.SolvedBy f ∧ u.SolvedBy f :=
  solvedBy_comp_of_disjoint fun v hv hvu => hu.disjoint v hv (Or.inl hvu)

/-- Fresh variables are live. -/
theorem live_grow (hs : s.Settled W) {n : TyVar} (hW : Below W n) (n' : TyVar) :
    live (grow W n n') s = grow (live W s) n n' := by
  ext v
  simp only [mem_live, mem_grow]
  constructor
  · rintro ⟨hv | hv, hvs⟩
    · exact Or.inl ⟨hv, hvs⟩
    · exact Or.inr hv
  · rintro (⟨hv, hvs⟩ | hv)
    · exact ⟨Or.inl hv, hvs⟩
    · refine ⟨Or.inr hv, fun hvs => ?_⟩
      exact absurd (hW v (hs.within v (Or.inl hvs))) (Int.not_lt.mpr hv.1)

/-- Assignments that agree on the scope solve it alike. -/
theorem solvedBy_congr (hs : s.Settled W) {f g : Assignment} (h : s.SolvedBy f)
    (hfg : ∀ v ∈ W, g v = f v) : s.SolvedBy g :=
  h.congr fun v hv => hfg v (hs.within v hv)

end Subst.Settled

theorem live_comp (W : Set TyVar) (s u : Subst) : live W (u.comp s) = live (live W s) u := by
  ext v
  simp only [mem_live, Subst.mem_comp, not_or, and_assoc]

end Polytype
