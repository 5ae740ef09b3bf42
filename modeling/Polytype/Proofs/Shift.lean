/-
# Polytype.Proofs.Shift — all type variables moved by the same number.

Nothing in inference looks at the number of a type variable, but for the order of the quantified variables
of a scheme, and adding the same number to all of them keeps their order.  So every operation of inference
commutes with `shift`, on types, substitutions, schemes and environments.  The equations are written with
`shift` outside on the left, as rules of `simp`; the operations that may fail come as `SameOutcome`, for any
relation between errors that holds of an error and the shifted one.
-/
import Mathlib.Data.List.Sort
import Polytype.Inference.Expr
import Polytype.Proofs.Inference.Drawing

namespace Polytype

/-! ## Types -/

namespace Ty

/-- Adds `d` to every variable of a type. -/
def shift (d : TyVar) (t : Ty) : Ty := t.assign fun v => .var (v + d)

variable {d : TyVar} {t u : Ty}

@[simp]
theorem shift_prim (p : Prim) : (Ty.prim p).shift d = .prim p := rfl

@[simp]
theorem shift_var (v : TyVar) : (Ty.var v).shift d = .var (v + d) := rfl

@[simp]
theorem shift_fn (a b : Ty) : (Ty.fn a b).shift d = .fn (a.shift d) (b.shift d) := rfl

@[simp]
theorem shift_tuple (ts : List Ty) : (Ty.tuple ts).shift d = .tuple (ts.map (shift d)) :=
  assign_tuple _ ts

@[simp]
theorem shift_record (fs : List (String × Ty)) :
    (Ty.record fs).shift d = .record (fs.map fun g => (g.1, g.2.shift d)) :=
  assign_record _ fs

@[simp]
theorem shift_sum (name : String) (ts : List Ty) :
    (Ty.sum name ts).shift d = .sum name (ts.map (shift d)) :=
  assign_sum _ name ts

@[simp]
theorem shift_absent : Ty.absent.shift d = .absent := rfl

@[simp]
theorem shift_zero (t : Ty) : t.shift 0 = t :=
  assign_eq_self fun v _ => by rw [Int.add_zero]

theorem shift_shift (d d' : TyVar) (t : Ty) : (t.shift d).shift d' = t.shift (d + d') := by
  rw [shift, shift, assign_assign]
  exact assign_congr fun v _ => by rw [assign_var, Int.add_assoc]

theorem shift_inj : t.shift d = u.shift d ↔ t = u := by
  refine ⟨fun h => ?_, congrArg (shift d)⟩
  have h' := congrArg (shift (-d)) h
  rwa [shift_shift, shift_shift, Int.add_right_neg, shift_zero, shift_zero] at h'

theorem shift_of_vars_nil (h : t.vars = []) : t.shift d = t := assign_of_vars_nil h

@[simp]
theorem head?_shift (t : Ty) : (t.shift d).head? = t.head? := by
  cases t <;> simp [head?]

@[simp]
theorem children_shift (t : Ty) : (t.shift d).children = t.children.map (shift d) := by
  cases t <;> simp [children]

theorem mem_vars_shift {v : TyVar} : v ∈ (t.shift d).vars ↔ v - d ∈ t.vars := by
  rw [shift, mem_vars_assign]
  simp only [vars, List.mem_singleton]
  constructor
  · rintro ⟨w, hw, rfl⟩
    rwa [Int.add_sub_cancel]
  · exact fun h => ⟨v - d, h, (Int.sub_add_cancel v d).symm⟩

theorem map_shift_freshTys (n : TyVar) (count : Nat) :
    (freshTys n count).map (shift d) = freshTys (n + d) count := by
  rw [freshTys, freshTys, List.map_map]
  refine List.map_congr_left fun i _ => ?_
  rw [Function.comp_apply, shift_var, Int.add_right_comm]

end Ty

/-! ## Sets of variables -/

/-- Adds `d` to every member of a set of variables. -/
def VarSet.shift (d : TyVar) (vs : VarSet) : VarSet := .ofList (vs.toList.map (· + d))

namespace VarSet

variable {d v : TyVar} {vs : VarSet}

@[simp]
theorem mem_shift : v ∈ VarSet.shift d vs ↔ v - d ∈ vs := by
  simp only [shift, Std.ExtTreeSet.mem_ofList, List.contains_iff_mem, List.mem_map,
    Std.ExtTreeSet.mem_toList]
  constructor
  · rintro ⟨w, hw, rfl⟩
    rwa [Int.add_sub_cancel]
  · exact fun h => ⟨v - d, h, Int.sub_add_cancel v d⟩

/-- The shifted set is listed in the same order. -/
theorem toList_shift (d : TyVar) (vs : VarSet) :
    (VarSet.shift d vs).toList = vs.toList.map (· + d) := by
  have hsorted : ∀ ws : VarSet, ws.toList.Pairwise (· < ·) := fun ws =>
    Std.ExtTreeSet.ordered_toList.imp fun h => Int.compare_eq_lt.mp h
  -- two ascending lists with the same members are equal
  refine (hsorted _).eq_of_mem_iff ?_ fun v => ?_
  · exact (hsorted vs).map _ fun _ _ h => Int.add_lt_add_right h d
  · rw [Std.ExtTreeSet.mem_toList, shift, Std.ExtTreeSet.mem_ofList, List.contains_iff_mem]

@[simp]
theorem size_shift : (VarSet.shift d vs).size = vs.size := by
  rw [← Std.ExtTreeSet.length_toList, toList_shift, List.length_map, Std.ExtTreeSet.length_toList]

end VarSet

/-! ## Substitutions -/

/-- Adds `d` to every variable of a substitution, bound or in an image. -/
def Subst.shift (d : TyVar) (s : Subst) : Subst :=
  .ofList (s.toList.map fun b => (b.1 + d, b.2.shift d))

namespace Subst

variable {d : TyVar} {s : Subst}

theorem getElem?_shift (v : TyVar) : (s.shift d)[v]? = s[v - d]?.map (Ty.shift d) := by
  have hkeys : ((s.toList.map fun b => (b.1 + d, b.2.shift d)).map Prod.fst).Nodup := by
    rw [List.map_map]
    refine List.pairwise_map.mpr (Std.ExtTreeMap.distinct_keys_toList.imp fun h heq => h ?_)
    rw [Std.LawfulEqCmp.compare_eq_iff_eq]
    exact (Int.add_left_inj d).mp heq
  refine Option.ext fun t => ?_
  rw [shift, getElem?_ofList_iff hkeys]
  simp only [List.mem_map, Prod.exists, Prod.mk.injEq, Option.map_eq_some_iff,
    Std.ExtTreeMap.mem_toList_iff_getElem?_eq_some]
  constructor
  · rintro ⟨w, u, hu, rfl, rfl⟩
    exact ⟨u, by rwa [Int.add_sub_cancel], rfl⟩
  · rintro ⟨u, hu, rfl⟩
    exact ⟨v - d, u, hu, Int.sub_add_cancel v d, rfl⟩

theorem image_shift (v : TyVar) : (s.shift d).image (v + d) = (s.image v).shift d := by
  rw [image, getElem?_shift, Int.add_sub_cancel, image]
  cases s[v]? <;> rfl

/-- A substitution whose images correspond does the same to corresponding types. -/
theorem apply_shift_of_image {s' : Subst} {t : Ty}
    (h : ∀ v ∈ t.vars, s'.image (v + d) = (s.image v).shift d) :
    (s.apply t).shift d = s'.apply (t.shift d) := by
  rw [Ty.shift, assign_apply, Ty.shift, apply_eq_assign, Ty.assign_assign]
  exact Ty.assign_congr fun v hv => (h v hv).symm

@[simp]
theorem shift_apply (t : Ty) : (s.apply t).shift d = (s.shift d).apply (t.shift d) :=
  apply_shift_of_image fun v _ => image_shift v

@[simp]
theorem shift_empty : (∅ : Subst).shift d = ∅ :=
  Std.ExtTreeMap.ext_getElem? fun v => by simp [getElem?_shift]

@[simp]
theorem shift_zero (s : Subst) : s.shift 0 = s :=
  Std.ExtTreeMap.ext_getElem? fun v => by
    rw [getElem?_shift, Int.sub_zero, funext Ty.shift_zero, Option.map_id']

@[simp]
theorem shift_single (v : TyVar) (t : Ty) : (single v t).shift d = single (v + d) (t.shift d) := by
  refine Std.ExtTreeMap.ext_getElem? fun w => ?_
  have hiff : v = w - d ↔ v + d = w := by lia
  simp only [getElem?_shift, single, Std.ExtTreeMap.getElem?_insert, Std.LawfulEqCmp.compare_eq_iff_eq,
    hiff]
  split <;> simp

@[simp]
theorem shift_comp (s₂ s₁ : Subst) : (s₂.comp s₁).shift d = (s₂.shift d).comp (s₁.shift d) := by
  refine Std.ExtTreeMap.ext_getElem? fun v => ?_
  simp only [getElem?_shift, comp, Std.ExtTreeMap.getElem?_union, Std.ExtTreeMap.getElem?_map]
  cases s₁[v - d]? <;> simp

end Subst

/-! ## Schemes -/

/-- Adds `d` to every variable of a scheme, quantified or free. -/
def Scheme.shift (d : TyVar) (σ : Scheme) : Scheme :=
  ⟨VarSet.shift d σ.quantified, σ.body.shift d⟩

theorem idxOf_map {f : TyVar → TyVar} (hf : Function.Injective f) (v : TyVar) (vs : List TyVar) :
    (vs.map f).idxOf (f v) = vs.idxOf v := by
  induction vs with
  | nil => rfl
  | cons w vs ih => by_cases h : w = v <;> simp [hf.eq_iff, h, ih]

namespace Scheme

variable {d : TyVar}

theorem shift_mono (t : Ty) : (mono t).shift d = mono (t.shift d) := by
  refine congrArg (Scheme.mk · (t.shift d)) (Std.ExtTreeSet.ext_mem fun v => ?_)
  simp [mono]

theorem shift_freeVars (σ : Scheme) : VarSet.shift d σ.freeVars = (σ.shift d).freeVars :=
  Std.ExtTreeSet.ext_mem fun v => by
    rw [VarSet.mem_shift, mem_freeVars, mem_freeVars, shift, Ty.mem_vars_shift, VarSet.mem_shift]

theorem shift_apply (s : Subst) (σ : Scheme) :
    (σ.apply s).shift d = (σ.shift d).apply (s.shift d) := by
  refine congrArg (Scheme.mk (VarSet.shift d σ.quantified)) (Subst.apply_shift_of_image fun v _ => ?_)
  rw [Subst.image_without, Subst.image_without]
  simp only [shift, VarSet.mem_shift, Int.add_sub_cancel]
  split
  · rfl
  · exact Subst.image_shift v

theorem arity_shift (σ : Scheme) : (σ.shift d).arity = σ.arity := VarSet.size_shift

/-- The quantified variables keep their order, so each becomes the corresponding fresh variable. -/
theorem shift_instantiate (σ : Scheme) (n : TyVar) :
    (σ.instantiate n).shift d = (σ.shift d).instantiate (n + d) := by
  refine Subst.apply_shift_of_image fun v _ => ?_
  have hinj : Function.Injective fun v : TyVar => v + d := fun _ _ => (Int.add_left_inj d).mp
  -- the place of a variable in the list decides which fresh one it becomes
  rw [Subst.image_renumber (nodup_toList _), Subst.image_renumber (nodup_toList _), shift,
    VarSet.toList_shift]
  simp only [List.mem_map_of_injective hinj, idxOf_map hinj]
  split
  · rw [Ty.shift_var, Int.add_right_comm]
  · rfl

end Scheme

/-! ## Constructors -/

/-- Adds `d` to every variable of an instance of a constructor. -/
def ConstructorInstance.shift (d : TyVar) (c : ConstructorInstance) : ConstructorInstance :=
  ⟨c.fields.map (Ty.shift d), c.result.shift d⟩

/-- The fields of a constructor mention its parameters only, and these are not shifted. -/
theorem ConstructorInfo.Bounded.shift_instantiate {c : ConstructorInfo} (hc : c.Bounded) (d n : TyVar) :
    (c.instantiate n).shift d = c.instantiate (n + d) := by
  have hfields : (c.instantiate n).fields.map (Ty.shift d) = (c.instantiate (n + d)).fields := by
    rw [c.fields_instantiate hc n, c.fields_instantiate hc (n + d), List.map_map]
    refine List.map_congr_left fun t _ => ?_
    rw [Function.comp_apply, Ty.shift, Ty.assign_assign]
    exact Ty.assign_congr fun v _ => by rw [Ty.assign_var, Int.add_right_comm]
  have hresult : (c.instantiate n).result.shift d = (c.instantiate (n + d)).result := by
    simp only [instantiate, Ty.shift_sum, Ty.map_shift_freshTys]
  rw [ConstructorInstance.shift, hfields, hresult]

/-! ## Environments -/

/-- Adds `d` to every variable of every scheme. -/
def Env.shift (d : TyVar) (Γ : Env) : Env := Γ.map fun _ σ => σ.shift d

namespace Env

variable {d : TyVar}

theorem getElem?_shift (Γ : Env) (name : String) : (Γ.shift d)[name]? = Γ[name]?.map (Scheme.shift d) := by
  rw [shift, Std.ExtTreeMap.getElem?_map]

@[simp]
theorem shift_empty : (∅ : Env).shift d = ∅ :=
  Std.ExtTreeMap.ext_getElem? fun name => by simp [getElem?_shift]

@[simp]
theorem shift_insert (Γ : Env) (name : String) (σ : Scheme) :
    shift d (Γ.insert name σ) = (Γ.shift d).insert name (σ.shift d) := by
  refine Std.ExtTreeMap.ext_getElem? fun x => ?_
  simp only [getElem?_shift, Std.ExtTreeMap.getElem?_insert]
  split <;> rfl

@[simp]
theorem shift_bindTy (Γ : Env) (name : String) (t : Ty) :
    (Γ.bindTy name t).shift d = (Γ.shift d).bindTy name (t.shift d) := by
  rw [bindTy, shift_insert, Scheme.shift_mono, bindTy]

@[simp]
theorem shift_bindAll (Γ : Env) (bindings : List (String × Ty)) :
    (Γ.bindAll bindings).shift d = (Γ.shift d).bindAll (bindings.map fun b => (b.1, b.2.shift d)) := by
  induction bindings generalizing Γ with
  | nil => rfl
  | cons b bindings ih => exact (ih (Γ.bindTy b.1 b.2)).trans (by rw [shift_bindTy]; rfl)

@[simp]
theorem shift_apply (s : Subst) (Γ : Env) : (Γ.apply s).shift d = (Γ.shift d).apply (s.shift d) := by
  simp only [shift, apply, Std.ExtTreeMap.map_map, Scheme.shift_apply]

theorem shift_freeVars (Γ : Env) : VarSet.shift d Γ.freeVars = (Γ.shift d).freeVars := by
  refine Std.ExtTreeSet.ext_mem fun v => ?_
  simp only [VarSet.mem_shift, mem_freeVars, getElem?_shift, Option.map_eq_some_iff]
  constructor
  · rintro ⟨name, σ, hσ, hv⟩
    refine ⟨name, σ.shift d, ⟨σ, hσ, rfl⟩, ?_⟩
    rwa [← Scheme.shift_freeVars, VarSet.mem_shift]
  · rintro ⟨name, -, ⟨σ, hσ, rfl⟩, hv⟩
    refine ⟨name, σ, hσ, ?_⟩
    rwa [← Scheme.shift_freeVars, VarSet.mem_shift] at hv

@[simp]
theorem shift_generalize (Γ : Env) (t : Ty) :
    (Γ.generalize t).shift d = (Γ.shift d).generalize (t.shift d) := by
  refine congrArg (Scheme.mk · (t.shift d)) (Std.ExtTreeSet.ext_mem fun v => ?_)
  rw [VarSet.mem_shift, mem_quantified_generalize]
  show _ ↔ v ∈ ((Γ.shift d).generalize (t.shift d)).quantified
  rw [mem_quantified_generalize, Ty.mem_vars_shift, ← shift_freeVars, VarSet.mem_shift]

end Env

/-! ## Errors -/

/-- Adds `d` to every variable that a fault speaks about. -/
def Fault.shift (d : TyVar) : Fault → Fault
  | .mismatch left right => .mismatch (left.shift d) (right.shift d)
  | .occursCheck v t => .occursCheck (v + d) (t.shift d)
  | .recordExpected actual => .recordExpected (actual.shift d)
  | .tupleExpected actual => .tupleExpected (actual.shift d)
  | fault => fault

/-- Adds `d` to every variable that an error speaks about. -/
def TypeError.shift (d : TyVar) (e : TypeError) : TypeError := { e with fault := e.fault.shift d }

theorem TypeError.shift_zero (e : TypeError) : e.shift 0 = e := by
  obtain ⟨fault, nearest⟩ := e
  cases fault <;> simp [shift, Fault.shift]

/-! ## Unification -/

/-- Adds `d` to every variable of the equations. -/
def Equations.shift (d : TyVar) (eqs : Equations) : Equations :=
  eqs.map fun e => (e.1.shift d, e.2.shift d)

namespace Equations

variable {d : TyVar}

theorem shift_cons (a b : Ty) (eqs : Equations) :
    Equations.shift d ((a, b) :: eqs) = (a.shift d, b.shift d) :: eqs.shift d := rfl

theorem shift_apply (s : Subst) (eqs : Equations) :
    Equations.shift d (Equations.apply s eqs) = Equations.apply (s.shift d) (eqs.shift d) := by
  simp [shift, apply]

theorem shift_children (a b : Ty) (eqs : Equations) :
    Equations.shift d (a.children.zip b.children ++ eqs) =
      (a.shift d).children.zip (b.shift d).children ++ eqs.shift d := by
  simp [shift, List.zip_map, Prod.map]

end Equations

theorem lookup_map (f : Ty → Ty) (fs : List (String × Ty)) (label : String) :
    (fs.map fun g => (g.1, f g.2)).lookup label = (fs.lookup label).map f := by
  induction fs with
  | nil => rfl
  | cons g fs ih =>
      rw [List.map_cons, List.lookup_cons, List.lookup_cons, ih]
      split <;> rfl

theorem labels_map (f : Ty → Ty) (fs : List (String × Ty)) :
    Fields.labels (fs.map fun g => (g.1, f g.2)) = Fields.labels fs := by
  simp [Fields.labels]

section Fallible

variable {d : TyVar} {E : TypeError → TypeError → Prop} (hE : ∀ e, E e (e.shift d))
include hE

theorem bindVar_shift (v : TyVar) (t : Ty) :
    SameOutcome E (Subst.shift d) (bindVar v t) (bindVar (v + d) (t.shift d)) := by
  have hself : t.shift d = .var (v + d) ↔ t = .var v := Ty.shift_inj (u := .var v)
  have hoccurs : (t.shift d).occurs (v + d) = t.occurs v := by
    rw [Bool.eq_iff_iff, Ty.occurs_iff, Ty.occurs_iff, Ty.mem_vars_shift, Int.add_sub_cancel]
  simp only [bindVar, hself, hoccurs]
  split
  · exact .ok_of_eq Subst.shift_empty.symm
  · split
    · exact .error (hE _)
    · exact .ok_of_eq (Subst.shift_single v t).symm

theorem unifyAll_shift (eqs : Equations) :
    SameOutcome E (Subst.shift d) (unifyAll eqs) (unifyAll (eqs.shift d)) := by
  -- in order: a variable on the left, one on the right, equal heads, different heads
  fun_induction unifyAll eqs with
  | case1 =>
      rw [Equations.shift, List.map_nil, unifyAll]
      exact .ok_of_eq Subst.shift_empty.symm
  | case2 v b eqs e he =>
      rw [Equations.shift_cons, Ty.shift_var, unifyAll_var_left]
      exact (he ▸ bindVar_shift hE v b).error_bind
  | case3 v b eqs s hs ih =>
      rw [Equations.shift_cons, Ty.shift_var, unifyAll_var_left]
      rw [Equations.shift_apply] at ih
      exact (hs ▸ bindVar_shift hE v b).ok_bind (ih.map fun u => (u.shift_comp s).symm)
  | case4 a v eqs ha e he =>
      have hhead : (a.shift d).head? ≠ none := a.head?_shift ▸ head?_ne_none_of_not_var ha
      rw [Equations.shift_cons, Ty.shift_var, unifyAll_var_right hhead]
      exact (he ▸ bindVar_shift hE v a).error_bind
  | case5 a v eqs ha s hs ih =>
      have hhead : (a.shift d).head? ≠ none := a.head?_shift ▸ head?_ne_none_of_not_var ha
      rw [Equations.shift_cons, Ty.shift_var, unifyAll_var_right hhead]
      rw [Equations.shift_apply] at ih
      exact (hs ▸ bindVar_shift hE v a).ok_bind (ih.map fun u => (u.shift_comp s).symm)
  | case6 a b eqs ha hb h ih =>
      rw [Equations.shift_cons, unifyAll_heads (by simpa using head?_ne_none_of_not_var ha)
        (by simpa using head?_ne_none_of_not_var hb), Ty.head?_shift, Ty.head?_shift, if_pos h]
      rwa [Equations.shift_children] at ih
  | case7 a b eqs ha hb h =>
      rw [Equations.shift_cons, unifyAll_heads (by simpa using head?_ne_none_of_not_var ha)
        (by simpa using head?_ne_none_of_not_var hb), Ty.head?_shift, Ty.head?_shift, if_neg h]
      exact .error (hE _)

/-- Corresponding types have corresponding unifiers, or none. -/
theorem unify_shift {a b a' b' : Ty} (ha : a' = a.shift d) (hb : b' = b.shift d) :
    SameOutcome E (Subst.shift d) (unify a b) (unify a' b') := by
  subst ha hb
  exact unifyAll_shift hE [(a, b)]

theorem operands_shift (kind : OperatorKind) {a b a' b' : Ty} (ha : a' = a.shift d)
    (hb : b' = b.shift d) :
    SameOutcome E (Subst.shift d) (Infer.operands kind a b) (Infer.operands kind a' b') := by
  subst ha hb
  cases kind with
  | arithmetic =>
      refine (unify_shift hE rfl rfl).bind fun s₁ => ?_
      refine (unify_shift hE (Subst.shift_apply b).symm rfl).bind fun s₂ => ?_
      exact .ok_of_eq (s₂.shift_comp s₁).symm
  | equality => exact unify_shift hE rfl rfl
  | ordering =>
      refine (unify_shift hE rfl rfl).bind fun s => ?_
      rw [← Subst.shift_apply]
      cases s.apply a with
      | var v =>
          -- operands of unknown type are taken for integers
          refine (unify_shift hE rfl rfl).bind fun u => ?_
          exact .ok_of_eq (u.shift_comp s).symm
      | prim p =>
          cases p with
          | int => exact .ok s
          | char => exact .ok s
          | _ => exact .error (hE _)
      | _ => exact .error (hE _)

/-! ## Looking into types -/

theorem lookup_shift (Γ : Env) (name : String) :
    SameOutcome E (Scheme.shift d) (Γ.lookup name) ((Γ.shift d).lookup name) := by
  have hkeys : (Γ.shift d).keys = Γ.keys := Std.ExtTreeMap.keys_map
  rw [Env.lookup, Env.lookup, Env.getElem?_shift, hkeys]
  cases Γ[name]? with
  | none => exact .error (hE _)
  | some σ => exact .ok σ

theorem component_shift {t t' : Ty} (ht : t' = t.shift d) (index : Nat) :
    SameOutcome E (Ty.shift d) (Infer.component t index) (Infer.component t' index) := by
  subst ht
  cases t with
  | tuple ts =>
      rw [Ty.shift_tuple, Infer.component, Infer.component, List.getElem?_map]
      cases ts[index]? with
      | none => exact List.length_map (Ty.shift d) ▸ .error (hE _)
      | some t => exact .ok t
  | _ => exact .error (hE _)

theorem field_shift {t t' : Ty} (ht : t' = t.shift d) (label : String) :
    SameOutcome E (Ty.shift d) (Infer.field t label) (Infer.field t' label) := by
  subst ht
  cases t with
  | record fs =>
      rw [Ty.shift_record, Infer.field, Infer.field, lookup_map, labels_map]
      cases fs.lookup label with
      | none => exact .error (hE _)
      | some t => exact .ok t
  | _ => exact .error (hE _)

theorem fieldTypes_shift (known : List (String × Ty)) (labels : List String) :
    SameOutcome E (List.map (Ty.shift d)) (Infer.fieldTypes known labels)
      (Infer.fieldTypes (known.map fun g => (g.1, g.2.shift d)) labels) := by
  induction labels with
  | nil => exact .ok []
  | cons l labels ih =>
      rw [Infer.fieldTypes, Infer.fieldTypes, lookup_map, labels_map]
      cases known.lookup l with
      | none => exact .error (hE _)
      | some t => exact ih.bind fun ts => .ok (t :: ts)

end Fallible

end Polytype
