/-
# Polytype.Proofs.Assignment — types for all type variables at once.

A substitution is a finite map.  What it *means* is best said with a total function: an `Assignment`
gives every type variable a type, and `Ty.assign` puts the chosen types into a type.  Applying a
substitution is assigning its images (`Subst.apply_eq_assign`), so a statement about all assignments
is also one about all substitutions.

The notion that carries the theory of unification and of inference is that of a *solution*.  A
substitution lists equations `v = t`; an assignment solves it (`Subst.SolvedBy`) when it satisfies
them all.  A solution does not see whether the substitution has been applied
(`Subst.SolvedBy.assign_apply`), and it may be changed freely at variables that nothing mentions.
-/
import Mathlib.Data.List.Basic
import Polytype.Registry
import Polytype.Scheme

namespace Polytype

/-- A type for every type variable. -/
abbrev Assignment := TyVar → Ty

namespace Ty

mutual
/-- Puts the assigned types for the variables of a type. -/
def assign (f : Assignment) : Ty → Ty
  | .prim p => .prim p
  | .var v => f v
  | .fn dom cod => .fn (assign f dom) (assign f cod)
  | .tuple elems => .tuple (assignList f elems)
  | .record fields => .record (assignFields f fields)
  | .sum name args => .sum name (assignList f args)
  | .absent => .absent
/-- Puts the assigned types in every member of a list. -/
def assignList (f : Assignment) : List Ty → List Ty
  | [] => []
  | t :: ts => assign f t :: assignList f ts
/-- Puts the assigned types in every labelled type. -/
def assignFields (f : Assignment) : List (String × Ty) → List (String × Ty)
  | [] => []
  | (l, t) :: fs => (l, assign f t) :: assignFields f fs
end

theorem assignList_eq (f : Assignment) (ts : List Ty) : assignList f ts = ts.map (assign f) := by
  induction ts with
  | nil => rfl
  | cons t ts ih => rw [assignList, ih, List.map_cons]

theorem assignFields_eq (f : Assignment) (fs : List (String × Ty)) :
    assignFields f fs = fs.map fun g => (g.1, assign f g.2) := by
  induction fs with
  | nil => rfl
  | cons g fs ih => rw [assignFields, ih, List.map_cons]

@[simp]
theorem assign_prim (f : Assignment) (p : Prim) : assign f (.prim p) = .prim p := rfl

@[simp]
theorem assign_var (f : Assignment) (v : TyVar) : assign f (.var v) = f v := rfl

@[simp]
theorem assign_fn (f : Assignment) (a b : Ty) :
    assign f (.fn a b) = .fn (assign f a) (assign f b) := rfl

@[simp]
theorem assign_tuple (f : Assignment) (ts : List Ty) :
    assign f (.tuple ts) = .tuple (ts.map (assign f)) := by
  rw [assign, assignList_eq]

@[simp]
theorem assign_record (f : Assignment) (fs : List (String × Ty)) :
    assign f (.record fs) = .record (fs.map fun g => (g.1, assign f g.2)) := by
  rw [assign, assignFields_eq]

theorem assign_record_zip (f : Assignment) (labels : List String) (ts : List Ty) :
    assign f (.record (labels.zip ts)) = .record (labels.zip (ts.map (assign f))) := by
  rw [assign_record, List.zip_map_right]
  rfl

@[simp]
theorem assign_sum (f : Assignment) (name : String) (ts : List Ty) :
    assign f (.sum name ts) = .sum name (ts.map (assign f)) := by
  rw [assign, assignList_eq]

@[simp]
theorem assign_absent (f : Assignment) : assign f .absent = .absent := rfl

/-! ## Types by their heads and children

A type is a variable, or it is determined by its head and its children.  Laws of assigning need no
more than that, so their proofs have two cases instead of seven. -/

/-- Induction on variables, and from the children to the type. -/
theorem children_induct {motive : Ty → Prop} (var : ∀ v, motive (.var v))
    (node : ∀ t : Ty, t.head? ≠ none → (∀ c ∈ t.children, motive c) → motive t) (t : Ty) :
    motive t := by
  induction t with
  | prim p => exact node _ (by simp [head?]) (by simp [children])
  | var v => exact var v
  | fn a b iha ihb => exact node _ (by simp [head?]) (by simp [children, iha, ihb])
  | tuple ts ih => exact node _ (by simp [head?]) ih
  | record fs ih =>
      refine node _ (by simp [head?]) fun c hc => ?_
      obtain ⟨g, hg, rfl⟩ := List.mem_map.mp hc
      exact ih g hg
  | sum name ts ih => exact node _ (by simp [head?]) ih
  | absent => exact node _ (by simp [head?]) (by simp [children])

theorem head?_assign {f : Assignment} {t : Ty} (h : t.head? ≠ none) :
    (assign f t).head? = t.head? := by
  cases t <;> simp_all [head?]

theorem children_assign {f : Assignment} {t : Ty} (h : t.head? ≠ none) :
    (assign f t).children = t.children.map (assign f) := by
  cases t <;> simp_all [children, head?]

theorem mem_vars_iff_children {t : Ty} (h : t.head? ≠ none) {v : TyVar} :
    v ∈ t.vars ↔ ∃ c ∈ t.children, v ∈ c.vars := by
  rw [vars_eq_children h, List.mem_flatMap]

theorem mem_vars_fn {v : TyVar} {a b : Ty} :
    v ∈ (Ty.fn a b).vars ↔ v ∈ a.vars ∨ v ∈ b.vars := by
  rw [vars, List.mem_append]

theorem mem_vars_tuple {v : TyVar} {ts : List Ty} :
    v ∈ (Ty.tuple ts).vars ↔ ∃ t ∈ ts, v ∈ t.vars :=
  mem_vars_iff_children (by simp [head?])

theorem mem_vars_sum {v : TyVar} {name : String} {ts : List Ty} :
    v ∈ (Ty.sum name ts).vars ↔ ∃ t ∈ ts, v ∈ t.vars :=
  mem_vars_iff_children (by simp [head?])

theorem mem_vars_record {v : TyVar} {fs : List (String × Ty)} :
    v ∈ (Ty.record fs).vars ↔ ∃ g ∈ fs, v ∈ g.2.vars := by
  rw [mem_vars_iff_children (by simp [head?])]
  simp only [children, List.mem_map, exists_exists_and_eq_and]

/-! ## Laws of assigning -/

/-- Assignments that agree on the variables of a type do the same to it. -/
theorem assign_congr {f g : Assignment} {t : Ty} (h : ∀ v ∈ t.vars, f v = g v) :
    assign f t = assign g t := by
  induction t using children_induct with
  | var v => exact h v (by simp [vars])
  | node t ht ih =>
      refine ext_head ?_ ?_ ?_
      · rw [head?_assign ht, head?_assign ht]
      · rwa [head?_assign ht]
      · rw [children_assign ht, children_assign ht]
        refine List.map_congr_left fun c hc => ih c hc fun v hv => ?_
        exact h v ((mem_vars_iff_children ht).mpr ⟨c, hc, hv⟩)

/-- To assign twice is to assign the assigned types. -/
theorem assign_assign (f g : Assignment) (t : Ty) :
    assign g (assign f t) = assign (fun v => assign g (f v)) t := by
  induction t using children_induct with
  | var v => rfl
  | node t ht ih =>
      have hf : (assign f t).head? ≠ none := by rwa [head?_assign ht]
      refine ext_head ?_ ?_ ?_
      · rw [head?_assign hf, head?_assign ht, head?_assign ht]
      · rwa [head?_assign hf]
      · rw [children_assign hf, children_assign ht, children_assign ht, List.map_map]
        exact List.map_congr_left ih

theorem assign_var_self (t : Ty) : assign Ty.var t = t := by
  induction t using children_induct with
  | var v => rfl
  | node t ht ih =>
      refine ext_head (head?_assign ht) ?_ ?_
      · rwa [head?_assign ht]
      · rw [children_assign ht, List.map_congr_left ih, List.map_id']

/-- An assignment that keeps the variables of a type keeps the type. -/
theorem assign_eq_self {f : Assignment} {t : Ty} (h : ∀ v ∈ t.vars, f v = .var v) :
    assign f t = t := by
  rw [assign_congr h, assign_var_self]

/-- A type without variables is the same under every assignment. -/
theorem assign_of_vars_nil {f : Assignment} {t : Ty} (h : t.vars = []) : assign f t = t :=
  assign_eq_self fun v hv => by rw [h] at hv; exact absurd hv List.not_mem_nil

theorem mem_vars_assign {f : Assignment} {t : Ty} {v : TyVar} :
    v ∈ (assign f t).vars ↔ ∃ w ∈ t.vars, v ∈ (f w).vars := by
  induction t using children_induct with
  | var w => simp [vars]
  | node t ht ih =>
      have hf : (assign f t).head? ≠ none := by rwa [head?_assign ht]
      rw [mem_vars_iff_children hf, children_assign ht]
      simp only [List.mem_map, exists_exists_and_eq_and, mem_vars_iff_children ht]
      constructor
      · rintro ⟨c, hc, hv⟩
        obtain ⟨w, hw, hv⟩ := (ih c hc).mp hv
        exact ⟨w, ⟨c, hc, hw⟩, hv⟩
      · rintro ⟨w, ⟨c, hc, hw⟩, hv⟩
        exact ⟨c, hc, (ih c hc).mpr ⟨w, hw, hv⟩⟩

end Ty

/-! ## Substitutions as assignments -/

namespace Subst

/-- Applying a substitution is assigning the images of the variables. -/
theorem apply_eq_assign (s : Subst) (t : Ty) : s.apply t = t.assign s.image := by
  induction t using Ty.children_induct with
  | var v => rfl
  | node t ht ih =>
      refine Ty.ext_head ?_ ?_ ?_
      · rw [head?_apply ht, Ty.head?_assign ht]
      · rwa [head?_apply ht]
      · rw [children_apply ht, Ty.children_assign ht]
        exact List.map_congr_left ih

theorem assign_apply (f : Assignment) (s : Subst) (t : Ty) :
    (s.apply t).assign f = t.assign fun v => (s.image v).assign f := by
  rw [apply_eq_assign, Ty.assign_assign]

theorem mem_vars_apply {s : Subst} {t : Ty} {v : TyVar} :
    v ∈ (s.apply t).vars ↔ ∃ w ∈ t.vars, v ∈ (s.image w).vars := by
  rw [apply_eq_assign, Ty.mem_vars_assign]

/-! ## Solutions -/

/-- An assignment solves a substitution when it satisfies every equation that the substitution
lists: a variable and its image are assigned the same type. -/
def SolvedBy (s : Subst) (f : Assignment) : Prop := ∀ v, (s.image v).assign f = f v

theorem SolvedBy.assign_apply {s : Subst} {f : Assignment} (h : s.SolvedBy f) (t : Ty) :
    (s.apply t).assign f = t.assign f := by
  rw [Subst.assign_apply]
  exact Ty.assign_congr fun v _ => h v

theorem SolvedBy.map_assign {s : Subst} {f : Assignment} (h : s.SolvedBy f) (ts : List Ty) :
    (ts.map s.apply).map (Ty.assign f) = ts.map (Ty.assign f) := by
  rw [List.map_map]
  exact List.map_congr_left fun t _ => h.assign_apply t

theorem solvedBy_empty (f : Assignment) : SolvedBy ∅ f := fun v => by
  rw [image_empty, Ty.assign_var]

/-- What solves two substitutions solves their composite. -/
theorem SolvedBy.comp {s₁ s₂ : Subst} {f : Assignment} (h₂ : s₂.SolvedBy f) (h₁ : s₁.SolvedBy f) :
    (s₂.comp s₁).SolvedBy f := fun v => by
  rw [image_comp, h₂.assign_apply, h₁ v]

end Subst

end Polytype
