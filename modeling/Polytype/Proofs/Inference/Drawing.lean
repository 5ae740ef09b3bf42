/-
# Polytype.Proofs.Inference.Drawing — what is drawn can become anything.

Inference draws variables for the parameters of a scheme or of a constructor, for the components of a
tuple, for a result.  Whatever types an assignment gives to them, what comes out is an instance in the
declarative sense; and every instance comes about when the assignment is chosen for it, with no change
to the variables drawn before (`Assignment.extend`).

`Scheme.InstanceUnder f` is the notion of instance that inference deals with: the quantified variables
become any types at all and the free ones become what `f` says.
-/
import Polytype.Proofs.Inference.Steps
import Polytype.Proofs.Inference.Threaded
import Polytype.Proofs.Registry.Ascription

namespace Polytype

/-! ## Types for the variables from some number on -/

/-- Gives the types of a list to the variables from `n` on, and leaves those before `n` alone. -/
def Assignment.extend (f : Assignment) (n : TyVar) (ts : List Ty) : Assignment :=
  fun v => if v < n then f v else ts[(v - n).toNat]?.getD (f v)

namespace Assignment

variable {f : Assignment} {n : TyVar} {ts : List Ty}

theorem agree_extend (f : Assignment) (n : TyVar) (ts : List Ty) : f.Agree n (f.extend n ts) :=
  fun _ hv => if_pos hv

theorem extend_add {i : Nat} {t : Ty} (h : ts[i]? = some t) : f.extend n ts (n + i) = t := by
  have hlt : ¬ n + (i : Int) < n := by lia
  have hi : (n + (i : Int) - n).toNat = i := by lia
  rw [extend, if_neg hlt, hi, h]
  rfl

theorem extend_singleton (f : Assignment) (n : TyVar) (t : Ty) : f.extend n [t] n = t := by
  have h : ([t] : List Ty)[0]? = some t := rfl
  simpa using extend_add h

theorem map_freshTys (f : Assignment) (n : TyVar) (k : Nat) :
    (freshTys n k).map (Ty.assign f) = (List.range k).map fun (i : Nat) => f (n + i) := by
  simp [freshTys]

theorem map_freshTys_extend (f : Assignment) (n : TyVar) (ts : List Ty) :
    (freshTys n ts.length).map (Ty.assign (f.extend n ts)) = ts := by
  rw [map_freshTys]
  refine List.ext_getElem (by simp) fun i h₁ h₂ => ?_
  rw [List.getElem_map, List.getElem_range]
  exact extend_add (List.getElem?_eq_getElem h₂)

end Assignment

theorem within_freshTys (W : Set TyVar) (n : TyVar) (k : Nat) :
    ∀ t ∈ freshTys n k, t.Within (grow W n (n + k)) := by
  intro t ht
  obtain ⟨i, hi, rfl⟩ := List.mem_map.mp ht
  have hi := List.mem_range.mp hi
  exact Ty.within_var.mpr (Or.inr ⟨by lia, by lia⟩)

/-! ## Substitutions that are written as lists -/

theorem nodup_toList (vs : VarSet) : vs.toList.Nodup := by
  refine Std.ExtTreeSet.distinct_toList.imp fun h => ?_
  rwa [Std.LawfulEqCmp.compare_eq_iff_eq] at h

namespace Subst

variable {l : List (TyVar × Ty)} {vs : List TyVar} {n v : TyVar} {t : Ty}

theorem image_ofList (hl : (l.map Prod.fst).Nodup) (h : (v, t) ∈ l) :
    image (.ofList l) v = t := by
  have hl : l.Pairwise fun a b => ¬ compare a.1 b.1 = .eq := by
    simp only [Std.LawfulEqCmp.compare_eq_iff_eq]
    exact List.pairwise_map.mp hl
  exact image_of_getElem? (Std.ExtTreeMap.getElem?_ofList_of_mem (k := v) (by simp) hl h)

theorem image_ofList_of_notMem (h : v ∉ l.map Prod.fst) : image (.ofList l) v = .var v := by
  refine image_of_notMem fun hmem => h ?_
  rwa [Std.ExtTreeMap.mem_ofList, List.contains_iff_mem] at hmem

theorem image_renumber (hvs : vs.Nodup) :
    (renumber vs n).image v = if v ∈ vs then .var (n + (vs.idxOf v : Nat)) else .var v := by
  split
  · next hv =>
      refine image_ofList ?_ (List.mem_map.mpr ⟨(v, vs.idxOf v), ?_, rfl⟩)
      · simpa [Function.comp_def] using hvs
      · rw [List.mk_mem_zipIdx_iff_getElem?]
        exact List.getElem?_idxOf hv
  · next hv =>
      refine image_ofList_of_notMem ?_
      simpa [Function.comp_def] using hv

theorem image_ofParams (ts : List Ty) (i : Nat) :
    (ofParams ts).image (i : TyVar) = ts[i]?.getD (.var i) := by
  have hkeys : (ts.zipIdx.map fun p => ((p.2 : TyVar), p.1)).map Prod.fst =
      (List.range ts.length).map fun (i : Nat) => (i : TyVar) := by
    rw [List.range_eq_range', ← List.zipIdx_map_snd 0 ts, List.map_map, List.map_map]
    rfl
  cases h : ts[i]? with
  | some t =>
      refine image_ofList ?_ (List.mem_map.mpr ⟨(t, i), List.mk_mem_zipIdx_iff_getElem?.mpr h, rfl⟩)
      rw [hkeys]
      exact List.nodup_range.map fun _ _ hij => Int.ofNat_inj.mp hij
  | none =>
      refine image_ofList_of_notMem ?_
      rw [hkeys]
      intro hmem
      obtain ⟨j, hj, hji⟩ := List.mem_map.mp hmem
      rw [List.getElem?_eq_none_iff, ← Int.ofNat_inj.mp hji] at h
      exact absurd (List.mem_range.mp hj) (Nat.not_lt.mpr h)

/-- The finite part of an assignment. -/
def ofAssignment (θ : Assignment) (vs : VarSet) : Subst := .ofList (vs.toList.map fun v => (v, θ v))

theorem image_ofAssignment {θ : Assignment} {vs : VarSet} :
    (ofAssignment θ vs).image v = if v ∈ vs then θ v else .var v := by
  have hkeys : (vs.toList.map fun v => (v, θ v)).map Prod.fst = vs.toList := by
    simp [Function.comp_def]
  split
  · next hv =>
      refine image_ofList ?_ (List.mem_map.mpr ⟨v, Std.ExtTreeSet.mem_toList.mpr hv, rfl⟩)
      rw [hkeys]
      exact nodup_toList vs
  · next hv =>
      refine image_ofList_of_notMem ?_
      rwa [hkeys, Std.ExtTreeSet.mem_toList]

end Subst

/-! ## Instances of schemes -/

namespace Scheme

variable {σ : Scheme} {f g : Assignment} {n : TyVar} {t : Ty}

/-- The quantified variables become what `θ` says, the others what `f` says. -/
def choose (σ : Scheme) (θ f : Assignment) : Assignment :=
  fun v => if v ∈ σ.quantified then θ v else f v

/-- The types that a scheme stands for when its free variables are given types by `f`. -/
def InstanceUnder (f : Assignment) (σ : Scheme) (t : Ty) : Prop :=
  ∃ θ : Assignment, t = σ.body.assign (σ.choose θ f)

/-- An instance is one whose free variables stay as they are. -/
theorem instance_iff : σ.Instance t ↔ σ.InstanceUnder Ty.var t := by
  constructor
  · rintro ⟨s, hs, rfl⟩
    refine ⟨s.image, ?_⟩
    rw [Subst.apply_eq_assign]
    refine Ty.assign_congr fun v _ => ?_
    rw [choose]
    split
    · rfl
    · next hv => exact Subst.image_of_notMem fun hvs => hv (hs v hvs)
  · rintro ⟨θ, rfl⟩
    refine ⟨Subst.ofAssignment θ σ.quantified, fun v hv => ?_, ?_⟩
    · simpa [Subst.ofAssignment, Std.ExtTreeMap.mem_ofList] using hv
    · rw [Subst.apply_eq_assign]
      refine Ty.assign_congr fun v _ => ?_
      rw [Subst.image_ofAssignment, choose]

theorem instanceUnder_mono_iff {u : Ty} : (mono u).InstanceUnder f t ↔ t = u.assign f := by
  have h : ∀ θ, (mono u).choose θ f = f := by
    intro θ
    funext v
    simp [choose, mono]
  constructor
  · rintro ⟨θ, rfl⟩
    rw [h θ]
    rfl
  · rintro rfl
    refine ⟨f, ?_⟩
    rw [h f]
    rfl

/-- Only the types of the free variables matter. -/
theorem InstanceUnder.congr (h : σ.InstanceUnder f t)
    (hfg : ∀ v ∈ σ.body.vars, v ∉ σ.quantified → g v = f v) : σ.InstanceUnder g t := by
  obtain ⟨θ, rfl⟩ := h
  refine ⟨θ, Ty.assign_congr fun v hv => ?_⟩
  rw [choose, choose]
  split
  · rfl
  · next hq => exact (hfg v hv hq).symm

theorem assign_instantiate (σ : Scheme) (n : TyVar) (f : Assignment) :
    (σ.instantiate n).assign f =
      σ.body.assign (σ.choose (fun v => f (n + (σ.quantified.toList.idxOf v : Nat))) f) := by
  rw [instantiate, Subst.assign_apply]
  refine Ty.assign_congr fun v _ => ?_
  rw [Subst.image_renumber (nodup_toList _), choose]
  simp only [Std.ExtTreeSet.mem_toList]
  split
  · rfl
  · rfl

theorem instanceUnder_instantiate (σ : Scheme) (n : TyVar) (f : Assignment) :
    σ.InstanceUnder f ((σ.instantiate n).assign f) :=
  ⟨_, assign_instantiate σ n f⟩

/-- Every instance is reached from the one at fresh variables. -/
theorem InstanceUnder.exists_agree (h : σ.InstanceUnder f t)
    (hσ : ∀ v ∈ σ.body.vars, v ∉ σ.quantified → v < n) :
    ∃ g, f.Agree n g ∧ (σ.instantiate n).assign g = t := by
  obtain ⟨θ, rfl⟩ := h
  refine ⟨f.extend n (σ.quantified.toList.map θ), f.agree_extend n _, ?_⟩
  rw [assign_instantiate]
  refine Ty.assign_congr fun v hv => ?_
  rw [choose, choose]
  split
  · next hq =>
      have hmem : v ∈ σ.quantified.toList := Std.ExtTreeSet.mem_toList.mpr hq
      refine Assignment.extend_add ?_
      rw [List.getElem?_map, List.getElem?_idxOf hmem]
      rfl
  · next hq => exact f.agree_extend n _ v (hσ v hv hq)

theorem within_instantiate {W : Set TyVar} (hσ : ∀ v ∈ σ.body.vars, v ∉ σ.quantified → v ∈ W) :
    (σ.instantiate n).Within (grow W n (n + σ.arity)) := by
  intro v hv
  obtain ⟨w, hw, hv⟩ := Subst.mem_vars_apply.mp hv
  rw [Subst.image_renumber (nodup_toList _)] at hv
  split at hv
  · next hq =>
      obtain rfl : v = n + (σ.quantified.toList.idxOf w : Nat) := by simpa [Ty.vars] using hv
      have hlt : σ.quantified.toList.idxOf w < σ.arity := by
        rw [arity, ← Std.ExtTreeSet.length_toList]
        exact List.idxOf_lt_length_iff.mpr hq
      exact Or.inr ⟨by lia, by lia⟩
  · next hq =>
      obtain rfl : v = w := by simpa [Ty.vars] using hv
      exact Or.inl (hσ v hw fun h => hq (Std.ExtTreeSet.mem_toList.mpr h))

end Scheme

/-! ## Instances of constructors -/

namespace ConstructorInfo

variable {c : ConstructorInfo} {f : Assignment} {n : TyVar}

/-- The fields mention no variables but the parameters. -/
def Bounded (c : ConstructorInfo) : Prop :=
  ∀ t ∈ c.fields, ∀ v ∈ t.vars, ∃ i < c.typeParams.length, v = (i : TyVar)

theorem image_params (c : ConstructorInfo) {i : Nat} (hi : i < c.typeParams.length) (n : TyVar) :
    (Subst.renumber ((List.range c.paramCount).map Int.ofNat) n).image (i : TyVar) = .var (n + i) := by
  have hinj : Function.Injective Int.ofNat := fun _ _ h => Int.ofNat_inj.mp h
  rw [Subst.image_renumber (List.nodup_range.map hinj), if_pos]
  · have h := (List.nodup_range.map hinj).idxOf_getElem i (by simpa [paramCount] using hi)
    rw [List.getElem_map, List.getElem_range] at h
    exact congrArg (fun k : Nat => Ty.var (n + k)) h
  · exact List.mem_map.mpr ⟨i, List.mem_range.mpr hi, rfl⟩

/-- Parameter number `i` becomes the variable `n + i` in all fields. -/
theorem fields_instantiate (hc : c.Bounded) (n : TyVar) :
    (c.instantiate n).fields = c.fields.map (Ty.assign fun v => .var (n + v)) := by
  refine List.map_congr_left fun t ht => ?_
  rw [Subst.apply_eq_assign]
  refine Ty.assign_congr fun v hv => ?_
  obtain ⟨i, hi, rfl⟩ := hc t ht v hv
  exact image_params c hi n

theorem map_assign_instantiate (hc : c.Bounded) (n : TyVar) (f : Assignment) :
    (c.instantiate n).fields.map (Ty.assign f) =
      c.fieldsAt ((freshTys n c.paramCount).map (Ty.assign f)) := by
  rw [instantiate, fieldsAt, List.map_map]
  refine List.map_congr_left fun t ht => ?_
  rw [Function.comp_apply, Subst.assign_apply, Subst.apply_eq_assign]
  refine Ty.assign_congr fun v hv => ?_
  obtain ⟨i, hi, rfl⟩ := hc t ht v hv
  rw [image_params c hi, Subst.image_ofParams, Assignment.map_freshTys]
  simp [paramCount, hi]

theorem assign_result (c : ConstructorInfo) (n : TyVar) (f : Assignment) :
    (c.instantiate n).result.assign f =
      .sum c.typeName ((freshTys n c.paramCount).map (Ty.assign f)) :=
  Ty.assign_sum f _ _

theorem within_fields (hc : c.Bounded) (W : Set TyVar) (n : TyVar) :
    ∀ t ∈ (c.instantiate n).fields, t.Within (grow W n (n + c.paramCount)) := by
  intro u hu v hv
  obtain ⟨t, ht, rfl⟩ := List.mem_map.mp hu
  obtain ⟨w, hw, hv⟩ := Subst.mem_vars_apply.mp hv
  obtain ⟨i, hi, rfl⟩ := hc t ht w hw
  rw [image_params c hi] at hv
  obtain rfl : v = n + (i : TyVar) := by simpa [Ty.vars] using hv
  exact Or.inr ⟨by lia, by unfold paramCount; lia⟩

theorem within_result (c : ConstructorInfo) (W : Set TyVar) (n : TyVar) :
    (c.instantiate n).result.Within (grow W n (n + c.paramCount)) :=
  Ty.within_sum.mpr (within_freshTys W n c.paramCount)

end ConstructorInfo

/-! ## Ascriptions -/

namespace Infer

variable {r : Registry} {ascription : Option TypeExpr} {st st' : InferState} {t : Ty}

theorem drawnFrom_start (n : TyVar) : NamedVars.DrawnFrom n { next := n } :=
  ⟨Int.le_refl n, fun x v hv => by simp at hv⟩

theorem lt_succ (n : TyVar) : n < n + 1 := Int.lt_add_one_iff.mpr (Int.le_refl n)

/-- Whatever becomes of the variables drawn for an ascription, the ascription is met. -/
theorem ascribedOrFresh_sound (hr : r.WellFormed)
    (h : (ascribedOrFresh r ascription).start st = (.ok t, st')) :
    st.next ≤ st'.next ∧ t.Within (grow ∅ st.next st'.next) ∧
      ∀ f, Ascribed r.toTypeTable ascription (t.assign f) := by
  cases ascription with
  | none =>
      obtain ⟨rfl, rfl⟩ := start_ascribedOrFresh_ok.mp h
      refine ⟨Int.le_of_lt (lt_succ _), Ty.within_var.mpr ?_, fun _ => trivial⟩
      exact Or.inr ⟨Int.le_refl _, lt_succ _⟩
  | some e =>
      obtain ⟨sc, hsc, rfl⟩ := start_ascribed_ok.mp h
      have hres := TypeTable.resolveWith_resolvesTo hr.synonym_closed e (drawnFrom_start st.next) hsc
      refine ⟨hres.scope_extends.next_le, hres.within, fun f => ?_⟩
      -- each name stands for the type of its variable
      refine ⟨fun x => (sc.vars[x]?.map f).getD .int, hres.means f _ fun x v hv => ?_⟩
      rw [hv]
      rfl

/-- Every type that the ascription allows is one that the variables drawn for it can bring about. -/
theorem ascribedOrFresh_complete (hr : r.WellFormed) {T : Ty}
    (h : Ascribed r.toTypeTable ascription T) (f : Assignment) (st : InferState) :
    ∃ t st' g, (ascribedOrFresh r ascription).start st = (.ok t, st') ∧ f.Agree st.next g ∧
      t.assign g = T := by
  cases ascription with
  | none =>
      exact ⟨.var st.next, _, f.extend st.next [T], start_fresh st, f.agree_extend _ _,
        f.extend_singleton st.next T⟩
  | some e =>
      obtain ⟨ρ, hρ⟩ := h
      obtain ⟨t, sc, g, hsc, hfg, -, hT⟩ :=
        hr.resolveWith_reaches e (drawnFrom_start st.next) (f := f) (fun x v hv => by simp at hv) hρ
      exact ⟨t, _, g, start_ascribed_ok.mpr ⟨sc, hsc, rfl⟩, hfg, hT⟩

end Infer

end Polytype
