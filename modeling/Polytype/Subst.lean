/-
# Polytype.Subst — finite substitutions of types for type variables.

A substitution is a finite map, so two substitutions are equal exactly when they give every variable
the same image.  `apply` goes through a type once and leaves the images as they are; `comp` is
composition, `s₂` after `s₁`.  Both are determined by the image of a variable: `apply_eq_of_image`
and `image_comp`, which give `apply_comp`.
-/
import Std.Data.ExtTreeMap
import Polytype.Ty.Text

namespace Polytype

/-- A finite map from type variables to types. -/
abbrev Subst := Std.ExtTreeMap TyVar Ty

namespace Subst

/-- The substitution that replaces one variable. -/
def single (v : TyVar) (t : Ty) : Subst := (∅ : Subst).insert v t

/-- What a variable becomes: its image, or itself where the map says nothing. -/
def image (s : Subst) (v : TyVar) : Ty := s[v]?.getD (.var v)

mutual
/-- Replaces every variable of a type by its image, in one pass. -/
def apply (s : Subst) : Ty → Ty
  | .prim p => .prim p
  | .var v => s.image v
  | .fn dom cod => .fn (apply s dom) (apply s cod)
  | .tuple elems => .tuple (applyList s elems)
  | .record fields => .record (applyFields s fields)
  | .sum name args => .sum name (applyList s args)
  | .absent => .absent
/-- Replaces the variables of every member of a list. -/
def applyList (s : Subst) : List Ty → List Ty
  | [] => []
  | t :: ts => apply s t :: applyList s ts
/-- Replaces the variables of every labelled type; the labels stay. -/
def applyFields (s : Subst) : List (String × Ty) → List (String × Ty)
  | [] => []
  | (l, t) :: fs => (l, apply s t) :: applyFields s fs
end

/-- Composition: `s₁` first, then `s₂`. -/
def comp (s₂ s₁ : Subst) : Subst := s₂ ∪ s₁.map fun _ t => s₂.apply t

/-- The substitution that leaves the variables of `vs` alone. -/
def without (s : Subst) (vs : VarSet) : Subst := s.filter fun v _ => v ∉ vs

/-- Sends the variables of a list to the consecutive variables from `n` on. -/
def renumber (vs : List TyVar) (n : TyVar) : Subst :=
  .ofList (vs.zipIdx.map fun (v, i) => (v, Ty.var (n + i)))

/-- The bindings in ascending order of their variables. -/
def render (s : Subst) : String :=
  "\x7b" ++ Text.commas (s.toList.map fun (v, t) => TyVar.render v ++ " := " ++ t.render) ++ "\x7d"

/-! ## Application on each form of type -/

theorem applyList_eq (s : Subst) (ts : List Ty) : s.applyList ts = ts.map s.apply := by
  induction ts with
  | nil => rfl
  | cons t ts ih => simp [applyList, ih]

theorem applyFields_eq (s : Subst) (fs : List (String × Ty)) :
    s.applyFields fs = fs.map fun f => (f.1, s.apply f.2) := by
  induction fs with
  | nil => rfl
  | cons f fs ih => simp [applyFields, ih]

@[simp]
theorem apply_prim (s : Subst) (p : Prim) : s.apply (.prim p) = .prim p := rfl

@[simp]
theorem apply_var (s : Subst) (v : TyVar) : s.apply (.var v) = s.image v := rfl

@[simp]
theorem apply_fn (s : Subst) (a b : Ty) : s.apply (.fn a b) = .fn (s.apply a) (s.apply b) := rfl

@[simp]
theorem apply_tuple (s : Subst) (ts : List Ty) :
    s.apply (.tuple ts) = .tuple (ts.map s.apply) := by
  rw [apply, applyList_eq]

@[simp]
theorem apply_record (s : Subst) (fs : List (String × Ty)) :
    s.apply (.record fs) = .record (fs.map fun f => (f.1, s.apply f.2)) := by
  rw [apply, applyFields_eq]

@[simp]
theorem apply_sum (s : Subst) (name : String) (ts : List Ty) :
    s.apply (.sum name ts) = .sum name (ts.map s.apply) := by
  rw [apply, applyList_eq]

@[simp]
theorem apply_absent (s : Subst) : s.apply .absent = .absent := rfl

/-- Two substitutions that agree on the variables of a type do the same to it. -/
theorem apply_eq_of_image {s s' : Subst} {t : Ty} (h : ∀ v ∈ t.vars, s.image v = s'.image v) :
    s.apply t = s'.apply t := by
  induction t with
  | prim p => rfl
  | var v => exact h v (by simp [Ty.vars])
  | fn a b iha ihb =>
    simp only [Ty.vars, List.mem_append] at h
    rw [apply_fn, apply_fn, iha fun v hv => h v (.inl hv), ihb fun v hv => h v (.inr hv)]
  | tuple ts ih =>
    simp only [Ty.vars, Ty.varsList_eq, List.mem_flatMap] at h
    simp only [apply_tuple, Ty.tuple.injEq]
    exact List.map_congr_left fun t ht => ih t ht fun v hv => h v ⟨t, ht, hv⟩
  | record fs ih =>
    simp only [Ty.vars, Ty.varsFields_eq, List.mem_flatMap, List.mem_map] at h
    simp only [apply_record, Ty.record.injEq]
    refine List.map_congr_left fun f hf => ?_
    rw [ih f hf fun v hv => h v ⟨f.2, ⟨f, hf, rfl⟩, hv⟩]
  | sum n ts ih =>
    simp only [Ty.vars, Ty.varsList_eq, List.mem_flatMap] at h
    simp only [apply_sum, Ty.sum.injEq, true_and]
    exact List.map_congr_left fun t ht => ih t ht fun v hv => h v ⟨t, ht, hv⟩
  | absent => rfl

/-! ## Images -/

@[simp]
theorem image_empty (v : TyVar) : image ∅ v = .var v := by
  simp [image]

theorem image_single (v w : TyVar) (t : Ty) :
    (single v t).image w = if w = v then t else .var w := by
  by_cases h : w = v
  · subst h
    simp [image, single]
  · have h' : compare v w ≠ .eq := fun e => h (Std.LawfulEqCmp.eq_of_compare e).symm
    simp [image, single, h, h']

/-- A composite sends a variable where the second map sends its first image. -/
@[simp]
theorem image_comp (s₂ s₁ : Subst) (v : TyVar) :
    (s₂.comp s₁).image v = s₂.apply (s₁.image v) := by
  simp only [image, comp, Std.ExtTreeMap.getElem?_union, Std.ExtTreeMap.getElem?_map]
  cases s₁[v]? with
  | none => rfl
  | some t => rfl

@[simp]
theorem apply_empty (t : Ty) : apply ∅ t = t := by
  induction t with
  | prim p => rfl
  | var v => simp
  | fn a b iha ihb => simp [iha, ihb]
  | tuple ts ih => simpa using (List.map_congr_left ih).trans (List.map_id ts)
  | record fs ih =>
    simp only [apply_record, Ty.record.injEq]
    exact (List.map_congr_left fun f hf => by rw [ih f hf]; rfl).trans (List.map_id fs)
  | sum n ts ih => simpa using (List.map_congr_left ih).trans (List.map_id ts)
  | absent => rfl

/-- To apply a composite is to apply the first map and then the second. -/
theorem apply_comp (s₂ s₁ : Subst) (t : Ty) : (s₂.comp s₁).apply t = s₂.apply (s₁.apply t) := by
  induction t with
  | prim p => rfl
  | var v => simp
  | fn a b iha ihb => simp [iha, ihb]
  | tuple ts ih => simpa using ih
  | record fs ih =>
    simp only [apply_record, List.map_map, Ty.record.injEq]
    exact List.map_congr_left fun f hf => by simp [ih f hf]
  | sum n ts ih => simpa using ih
  | absent => rfl

/-! ## Heads, children and variables of an image -/

theorem head?_apply {s : Subst} {t : Ty} (h : t.head? ≠ none) : (s.apply t).head? = t.head? := by
  cases t <;> simp_all [Ty.head?]

theorem children_apply {s : Subst} {t : Ty} (h : t.head? ≠ none) :
    (s.apply t).children = t.children.map s.apply := by
  cases t <;> simp_all [Ty.children, Ty.head?]

/-- The variables of an image are those of the images of the variables. -/
theorem vars_apply (s : Subst) (t : Ty) :
    (s.apply t).vars = t.vars.flatMap fun v => (s.image v).vars := by
  induction t with
  | prim p => rfl
  | var v => simp [Ty.vars]
  | fn a b iha ihb => simp [Ty.vars, iha, ihb]
  | tuple ts ih =>
    simp only [apply_tuple, Ty.vars, Ty.varsList_eq, List.flatMap_map, List.flatMap_assoc]
    rw [List.flatMap_def, List.flatMap_def, List.map_congr_left ih]
  | record fs ih =>
    simp only [apply_record, Ty.vars, Ty.varsFields_eq, List.map_map, List.flatMap_map,
      List.flatMap_assoc, Function.comp_apply]
    rw [List.flatMap_def, List.flatMap_def, List.map_congr_left ih]
  | sum n ts ih =>
    simp only [apply_sum, Ty.vars, Ty.varsList_eq, List.flatMap_map, List.flatMap_assoc]
    rw [List.flatMap_def, List.flatMap_def, List.map_congr_left ih]
  | absent => rfl

/-- Replacing a variable brings in the variables of its image and takes the variable itself out. -/
theorem mem_vars_apply_single {v w : TyVar} {t u : Ty} :
    w ∈ ((single v t).apply u).vars ↔
      (w ∈ u.vars ∧ w ≠ v) ∨ (v ∈ u.vars ∧ w ∈ t.vars) := by
  simp only [vars_apply, List.mem_flatMap, image_single]
  constructor
  · rintro ⟨x, hx, hw⟩
    by_cases hxv : x = v
    · subst hxv
      exact .inr ⟨hx, by simpa using hw⟩
    · obtain rfl : w = x := by simpa [hxv, Ty.vars] using hw
      exact .inl ⟨hx, hxv⟩
  · rintro (⟨hw, hne⟩ | ⟨hv, hw⟩)
    · exact ⟨w, hw, by simp [hne, Ty.vars]⟩
    · exact ⟨v, hv, by simpa using hw⟩

end Subst

end Polytype
