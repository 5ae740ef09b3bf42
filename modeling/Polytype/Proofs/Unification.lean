/-
# Polytype.Proofs.Unification — unification finds all common instances, and nothing else.

The result is one equivalence.  When `unifyAll` answers with a substitution, the assignments that solve
the substitution are exactly those that make the two sides of every equation equal; when it fails,
there are none.  Together with the fact that the answer is settled in the variables of the equations
this gives everything that is asked of a most general unifier (`unify_mostGeneral`).

The induction is that of the algorithm.  Binding a variable is the one step with an argument:
`answered_bind` says that the equation just read and the ones still to come, with the binding put into
them, have together the solutions of the whole.
-/
import Polytype.Proofs.Settled
import Polytype.Unify

namespace Polytype

/-! ## Equations under an assignment -/

namespace Equations

/-- The assignment makes the two sides of every equation equal. -/
def UnifiedBy (eqs : Equations) (f : Assignment) : Prop :=
  ∀ e ∈ eqs, e.1.assign f = e.2.assign f

theorem unifiedBy_cons {a b : Ty} {eqs : Equations} {f : Assignment} :
    UnifiedBy ((a, b) :: eqs) f ↔ a.assign f = b.assign f ∧ eqs.UnifiedBy f := by
  simp only [UnifiedBy, List.forall_mem_cons]

theorem unifiedBy_append {eqs eqs' : Equations} {f : Assignment} :
    UnifiedBy (eqs ++ eqs') f ↔ eqs.UnifiedBy f ∧ eqs'.UnifiedBy f := by
  simp only [UnifiedBy, List.forall_mem_append]

theorem unifiedBy_apply {s : Subst} {eqs : Equations} {f : Assignment} (h : s.SolvedBy f) :
    UnifiedBy (apply s eqs) f ↔ eqs.UnifiedBy f := by
  simp only [UnifiedBy, apply, List.forall_mem_map, h.assign_apply]

/-- Two lists of types are equal under an assignment when their members are, in pairs. -/
theorem unifiedBy_zip {ts us : List Ty} (h : ts.length = us.length) {f : Assignment} :
    UnifiedBy (ts.zip us) f ↔ ts.map (Ty.assign f) = us.map (Ty.assign f) := by
  induction ts generalizing us with
  | nil =>
      obtain rfl := List.length_eq_zero_iff.mp h.symm
      simp [UnifiedBy]
  | cons t ts ih =>
      cases us with
      | nil => simp at h
      | cons u us =>
          rw [List.zip_cons_cons, unifiedBy_cons, ih (by simpa using h)]
          simp

/-- All variables of the equations, as a scope. -/
def scope (eqs : Equations) : Set TyVar := {v | v ∈ eqs.vars}

theorem within_scope {e : Ty × Ty} {eqs : Equations} (h : e ∈ eqs) :
    e.1.Within eqs.scope ∧ e.2.Within eqs.scope :=
  ⟨fun _ hv => List.mem_flatMap.mpr ⟨e, h, List.mem_append_left _ hv⟩,
    fun _ hv => List.mem_flatMap.mpr ⟨e, h, List.mem_append_right _ hv⟩⟩

theorem scope_subset {eqs : Equations} {W : Set TyVar}
    (h : ∀ e ∈ eqs, e.1.Within W ∧ e.2.Within W) : eqs.scope ⊆ W := by
  intro v hv
  obtain ⟨e, he, hv⟩ := List.mem_flatMap.mp hv
  rcases List.mem_append.mp hv with hv | hv
  · exact (h e he).1 v hv
  · exact (h e he).2 v hv

/-- Once a settled substitution has been applied, only live variables are left. -/
theorem scope_apply_subset {s : Subst} {eqs : Equations} {W : Set TyVar} (hs : s.Settled W)
    (h : eqs.scope ⊆ W) : (apply s eqs).scope ⊆ live W s := by
  refine scope_subset fun e he => ?_
  obtain ⟨e₀, he₀, rfl⟩ := List.mem_map.mp he
  have hw := within_scope he₀
  exact ⟨hs.apply_within fun v hv => h (hw.1 v hv), hs.apply_within fun v hv => h (hw.2 v hv)⟩

theorem scope_tail_subset (e : Ty × Ty) (eqs : Equations) : eqs.scope ⊆ scope (e :: eqs) :=
  scope_subset fun _ he => within_scope (List.mem_cons_of_mem e he)

end Equations

/-! ## Heads -/

namespace Ty

/-- Types with the same head are equal under an assignment exactly when their children are. -/
theorem assign_eq_iff_children {a b : Ty} (ha : a.head? ≠ none) (h : a.head? = b.head?)
    {f : Assignment} :
    a.assign f = b.assign f ↔ Equations.UnifiedBy (a.children.zip b.children) f := by
  have hb : b.head? ≠ none := by rwa [← h]
  rw [Equations.unifiedBy_zip (length_children_of_head h), ← children_assign ha,
    ← children_assign hb]
  refine ⟨fun hab => by rw [hab], fun hc => ?_⟩
  refine ext_head ?_ ?_ hc
  · rw [head?_assign ha, head?_assign hb, h]
  · rwa [head?_assign ha]

/-- Types with different heads stay different. -/
theorem assign_ne_of_head {a b : Ty} (ha : a.head? ≠ none) (hb : b.head? ≠ none)
    (h : a.head? ≠ b.head?) (f : Assignment) : a.assign f ≠ b.assign f := by
  intro hab
  apply h
  rw [← head?_assign ha (f := f), hab, head?_assign hb]

theorem size_le_sizeList {t : Ty} {ts : List Ty} (h : t ∈ ts) : t.size ≤ sizeList ts := by
  induction ts with
  | nil => exact absurd h List.not_mem_nil
  | cons u ts ih =>
      rcases List.mem_cons.mp h with rfl | h
      · exact Nat.le_add_right _ _
      · exact Nat.le_trans (ih h) (Nat.le_add_left _ _)

/-- What is assigned to a variable is no larger than what becomes of a type with the variable in it. -/
theorem size_assign_of_mem {f : Assignment} {t : Ty} {v : TyVar} (h : v ∈ t.vars) :
    (f v).size ≤ (t.assign f).size := by
  induction t using children_induct with
  | var w =>
      obtain rfl : v = w := by simpa [vars] using h
      exact Nat.le_refl _
  | node t ht ih =>
      obtain ⟨c, hc, hv⟩ := (mem_vars_iff_children ht).mp h
      have hle := size_le_sizeList (List.mem_map_of_mem hc : c.assign f ∈ t.children.map (assign f))
      have := ih c hc hv
      rw [size_eq_children (t.assign f), children_assign ht]
      omega

/-- The occurs check is right: no assignment makes a variable equal to another type in which it
occurs. -/
theorem assign_ne_of_occurs {f : Assignment} {t : Ty} {v : TyVar} (h : v ∈ t.vars)
    (hne : t ≠ .var v) : f v ≠ t.assign f := by
  have ht : t.head? ≠ none := by
    intro hnone
    obtain ⟨w, rfl⟩ := head?_eq_none_iff.mp hnone
    obtain rfl : v = w := by simpa [vars] using h
    exact hne rfl
  obtain ⟨c, hc, hv⟩ := (mem_vars_iff_children ht).mp h
  have hle := size_le_sizeList (List.mem_map_of_mem hc : c.assign f ∈ t.children.map (assign f))
  have hvc := size_assign_of_mem (f := f) hv
  intro heq
  have hsize := congrArg size heq
  rw [size_eq_children (t.assign f), children_assign ht] at hsize
  omega

end Ty

/-! ## One equation at a time -/

section Unfolding

variable {a b : Ty} {v : TyVar} {eqs : Equations}

theorem unifyAll_var_left :
    unifyAll ((.var v, b) :: eqs) =
      bindVar v b >>= fun s => (unifyAll (Equations.apply s eqs)).map (·.comp s) := by
  rw [unifyAll]
  split <;> simp_all [bind, Except.bind]

theorem unifyAll_var_right (ha : a.head? ≠ none) :
    unifyAll ((a, .var v) :: eqs) =
      bindVar v a >>= fun s => (unifyAll (Equations.apply s eqs)).map (·.comp s) := by
  rw [unifyAll]
  · split <;> simp_all [bind, Except.bind]
  · rintro w rfl
    exact ha rfl

theorem unifyAll_heads (ha : a.head? ≠ none) (hb : b.head? ≠ none) :
    unifyAll ((a, b) :: eqs) =
      if a.head? = b.head? then unifyAll (a.children.zip b.children ++ eqs)
      else (Fault.mismatch a b).raise := by
  rw [unifyAll]
  · rintro w rfl
    exact ha rfl
  · rintro w rfl
    exact hb rfl

end Unfolding

/-! ## Answers -/

/-- The faults that unification reports. -/
def Fault.IsClash : Fault → Prop
  | .mismatch _ _ => True
  | .occursCheck _ _ => True
  | _ => False

/-- A right answer to a list of equations: a settled substitution with the same solutions, or a
clash where there are none. -/
def Equations.Answered (eqs : Equations) : Except TypeError Subst → Prop
  | .ok s => s.Settled eqs.scope ∧ ∀ f, s.SolvedBy f ↔ eqs.UnifiedBy f
  | .error e => e.fault.IsClash ∧ ∀ f, ¬ eqs.UnifiedBy f

theorem solvedBy_single {v : TyVar} {t : Ty} {f : Assignment} :
    (Subst.single v t).SolvedBy f ↔ f v = t.assign f := by
  constructor
  · intro hs
    have hv := hs v
    rw [Subst.image_single, if_pos rfl] at hv
    exact hv.symm
  · intro hv w
    rw [Subst.image_single]
    split
    · next hw => rw [hw, hv]
    · rfl

theorem bindVar_spec (v : TyVar) (t : Ty) :
    Equations.Answered [(.var v, t)] (bindVar v t) := by
  have hunified : ∀ f, Equations.UnifiedBy [(.var v, t)] f ↔ f v = t.assign f := by
    intro f
    rw [Equations.unifiedBy_cons, Ty.assign_var]
    simp [Equations.UnifiedBy]
  unfold bindVar
  split
  · next ht =>
      refine ⟨Subst.Settled.empty _, fun f => ?_⟩
      rw [hunified, ht]
      simp [Subst.solvedBy_empty]
  · next hne =>
      split
      · next hocc =>
          refine ⟨trivial, fun f hf => ?_⟩
          exact Ty.assign_ne_of_occurs (Ty.occurs_iff.mp hocc) hne ((hunified f).mp hf)
      · next hocc =>
          have hv : v ∉ t.vars := fun h => hocc (Ty.occurs_iff.mpr h)
          refine ⟨⟨Subst.idempotent_single hv, fun w hw => ?_⟩, fun f => ?_⟩
          · show w ∈ Equations.vars _
            rw [Equations.vars_cons]
            rcases Subst.mentions_single.mp hw with rfl | hw
            · simp [Ty.vars]
            · simp [hw]
          · rw [hunified, solvedBy_single]

/-- The same answer serves for two lists of equations with the same variables and solutions. -/
theorem Equations.Answered.congr {eqs eqs' : Equations} {x : Except TypeError Subst}
    (h : eqs.Answered x) (hscope : eqs.scope ⊆ eqs'.scope)
    (hiff : ∀ f, eqs.UnifiedBy f ↔ eqs'.UnifiedBy f) : eqs'.Answered x := by
  cases x with
  | ok s => exact ⟨h.1.mono hscope, fun f => (h.2 f).trans (hiff f)⟩
  | error e => exact ⟨h.1, fun f hf => h.2 f ((hiff f).mpr hf)⟩

/-- A failure to solve the first equation is a failure to solve all. -/
theorem answered_error {e : TypeError} {a b : Ty} {eqs : Equations}
    (h : Equations.Answered [(a, b)] (.error e)) : Equations.Answered ((a, b) :: eqs) (.error e) := by
  refine ⟨h.1, fun f hf => h.2 f ?_⟩
  exact Equations.unifiedBy_cons.mpr ⟨(Equations.unifiedBy_cons.mp hf).1, by simp [Equations.UnifiedBy]⟩

/-- After the first equation is solved, the answer to the others completes its answer. -/
theorem answered_bind {s : Subst} {a b : Ty} {eqs : Equations} {x : Except TypeError Subst}
    (h : Equations.Answered [(a, b)] (.ok s)) (hx : Equations.Answered (Equations.apply s eqs) x) :
    Equations.Answered ((a, b) :: eqs) (x.map (·.comp s)) := by
  have hs : s.Settled (Equations.scope ((a, b) :: eqs)) :=
    h.1.mono (Equations.scope_subset fun e he =>
      Equations.within_scope (List.mem_cons.mpr (Or.inl (List.mem_singleton.mp he))))
  have hfirst : ∀ f, s.SolvedBy f ↔ a.assign f = b.assign f := by
    intro f
    rw [h.2 f, Equations.unifiedBy_cons]
    simp [Equations.UnifiedBy]
  cases x with
  | error e =>
      refine ⟨hx.1, fun f hf => hx.2 f ?_⟩
      obtain ⟨hab, hrest⟩ := Equations.unifiedBy_cons.mp hf
      exact (Equations.unifiedBy_apply ((hfirst f).mpr hab)).mpr hrest
  | ok u =>
      have hu : u.Settled (live (Equations.scope ((a, b) :: eqs)) s) :=
        hx.1.mono (Equations.scope_apply_subset hs (Equations.scope_tail_subset _ eqs))
      refine ⟨hs.comp hu, fun f => ?_⟩
      rw [hu.solvedBy_comp, hx.2 f, Equations.unifiedBy_cons, hfirst f]
      refine and_congr_right fun hab => ?_
      exact Equations.unifiedBy_apply ((hfirst f).mpr hab)

theorem answered_swap {a b : Ty} {x : Except TypeError Subst}
    (h : Equations.Answered [(b, a)] x) : Equations.Answered [(a, b)] x := by
  refine h.congr ?_ fun f => ?_
  · refine Equations.scope_subset fun e he => ?_
    rw [List.mem_singleton] at he
    subst he
    exact (Equations.within_scope (List.mem_singleton_self (a, b))).symm
  · rw [Equations.unifiedBy_cons, Equations.unifiedBy_cons, eq_comm]

/-- Two types with the same head may be replaced by their children. -/
theorem answered_children {a b : Ty} {eqs : Equations} {x : Except TypeError Subst}
    (ha : a.head? ≠ none) (h : a.head? = b.head?)
    (hx : Equations.Answered (a.children.zip b.children ++ eqs) x) :
    Equations.Answered ((a, b) :: eqs) x := by
  refine hx.congr ?_ fun f => ?_
  · intro v hv
    have hsub := Equations.vars_zip_subset a.children b.children
    change v ∈ Equations.vars _ at hv
    show v ∈ Equations.vars _
    rw [Equations.vars_append, List.mem_append] at hv
    rw [Equations.vars_cons, List.mem_append, List.mem_append]
    rcases hv with hv | hv
    · refine Or.inl ((List.mem_append.mp (hsub hv)).imp ?_ ?_)
      · exact fun h => Ty.vars_children_subset a h
      · exact fun h => Ty.vars_children_subset b h
    · exact Or.inr hv
  · rw [Equations.unifiedBy_append, Equations.unifiedBy_cons, Ty.assign_eq_iff_children ha h]

theorem head?_ne_none_of_not_var {t : Ty} (h : ∀ v, t = .var v → False) : t.head? ≠ none := by
  intro hnone
  obtain ⟨v, hv⟩ := Ty.head?_eq_none_iff.mp hnone
  exact h v hv

/-- **Unification is right on every list of equations.** -/
theorem unifyAll_spec (eqs : Equations) : Equations.Answered eqs (unifyAll eqs) := by
  fun_induction unifyAll eqs with
  | case1 => exact ⟨Subst.Settled.empty _, fun f => by simp [Subst.solvedBy_empty, Equations.UnifiedBy]⟩
  | case2 v b eqs e he =>
      have hspec := bindVar_spec v b
      rw [he] at hspec
      exact answered_error hspec
  | case3 v b eqs s hs ih =>
      have hspec := bindVar_spec v b
      rw [hs] at hspec
      exact answered_bind hspec ih
  | case4 a v eqs ha e he =>
      have hspec := bindVar_spec v a
      rw [he] at hspec
      exact answered_error (answered_swap hspec)
  | case5 a v eqs ha s hs ih =>
      have hspec := bindVar_spec v a
      rw [hs] at hspec
      exact answered_bind (answered_swap hspec) ih
  | case6 a b eqs ha hb h ih => exact answered_children (head?_ne_none_of_not_var ha) h ih
  | case7 a b eqs ha hb h =>
      refine ⟨trivial, fun f hf => ?_⟩
      exact Ty.assign_ne_of_head (head?_ne_none_of_not_var ha) (head?_ne_none_of_not_var hb) h f
        (Equations.unifiedBy_cons.mp hf).1

/-! ## Two types -/

/-- The variables of two types. -/
def pairScope (a b : Ty) : Set TyVar := Equations.scope [(a, b)]

theorem pairScope_subset {a b : Ty} {W : Set TyVar} (ha : a.Within W) (hb : b.Within W) :
    pairScope a b ⊆ W :=
  Equations.scope_subset fun e he => by
    rw [List.mem_singleton] at he
    subst he
    exact ⟨ha, hb⟩

theorem unifiedBy_pair {a b : Ty} {f : Assignment} :
    Equations.UnifiedBy [(a, b)] f ↔ a.assign f = b.assign f := by
  rw [Equations.unifiedBy_cons]
  simp [Equations.UnifiedBy]

theorem unify_settled {a b : Ty} {s : Subst} (h : unify a b = .ok s) {W : Set TyVar}
    (ha : a.Within W) (hb : b.Within W) : s.Settled W := by
  have hspec := unifyAll_spec [(a, b)]
  rw [show unifyAll [(a, b)] = .ok s from h] at hspec
  exact hspec.1.mono (pairScope_subset ha hb)

/-- The solutions of a unifier are the assignments that make the two types equal. -/
theorem unify_solvedBy {a b : Ty} {s : Subst} (h : unify a b = .ok s) {f : Assignment} :
    s.SolvedBy f ↔ a.assign f = b.assign f := by
  have hspec := unifyAll_spec [(a, b)]
  rw [show unifyAll [(a, b)] = .ok s from h] at hspec
  rw [hspec.2 f, unifiedBy_pair]

/-- Types that some assignment makes equal have a unifier, and the assignment solves it. -/
theorem unify_of_assign_eq {a b : Ty} {f : Assignment} (h : a.assign f = b.assign f) :
    ∃ s, unify a b = .ok s ∧ s.SolvedBy f := by
  cases hu : unify a b with
  | ok s => exact ⟨s, rfl, (unify_solvedBy hu).mpr h⟩
  | error e =>
      have hspec := unifyAll_spec [(a, b)]
      rw [show unifyAll [(a, b)] = .error e from hu] at hspec
      exact absurd (unifiedBy_pair.mpr h) (hspec.2 f)

/-- What a most general unifier of two types is.  `general` says that every other unifier is the same
with this one applied before it. -/
structure MostGeneralUnifier (a b : Ty) (s : Subst) : Prop where
  unifies : s.apply a = s.apply b
  general : ∀ u : Subst, u.apply a = u.apply b → ∀ t, u.apply t = u.apply (s.apply t)
  idempotent : ∀ v ∈ s, ∀ (w : TyVar) (t : Ty), s[w]? = some t → v ∉ t.vars
  bound_mem : ∀ v ∈ s, v ∈ a.vars ∨ v ∈ b.vars
  range_mem : ∀ (v : TyVar) (t : Ty), s[v]? = some t → ∀ w ∈ t.vars, w ∈ a.vars ∨ w ∈ b.vars

theorem mem_pairScope {a b : Ty} {v : TyVar} : v ∈ pairScope a b ↔ v ∈ a.vars ∨ v ∈ b.vars := by
  show v ∈ Equations.vars [(a, b)] ↔ _
  rw [Equations.vars_cons, List.mem_append, List.mem_append]
  simp [Equations.vars]

theorem unify_mostGeneralUnifier {a b : Ty} {s : Subst} (h : unify a b = .ok s) :
    MostGeneralUnifier a b s := by
  have hs : s.Settled (pairScope a b) :=
    unify_settled h (fun v hv => mem_pairScope.mpr (Or.inl hv))
      (fun v hv => mem_pairScope.mpr (Or.inr hv))
  refine ⟨?_, fun u hu t => ?_, fun v hv w t ht => ?_, fun v hv => ?_, fun v t ht w hw => ?_⟩
  · -- the images of an idempotent substitution solve it
    rw [Subst.apply_eq_assign, Subst.apply_eq_assign]
    refine (unify_solvedBy h).mp fun v => ?_
    have hsolved := hs.idempotent.solvedBy Ty.var v
    simpa only [Ty.assign_var_self] using hsolved
  · rw [Subst.apply_eq_assign, Subst.apply_eq_assign] at hu
    rw [Subst.apply_eq_assign, Subst.apply_eq_assign]
    exact (((unify_solvedBy h).mpr hu).assign_apply t).symm
  · rw [← Subst.image_of_getElem? ht]
    exact hs.idempotent v hv w (Subst.mem_of_getElem? ht)
  · exact mem_pairScope.mp (hs.within v (Or.inl hv))
  · refine mem_pairScope.mp (hs.within w (Or.inr ⟨v, Subst.mem_of_getElem? ht, ?_⟩))
    rwa [Subst.image_of_getElem? ht]

/-- **`unify` computes a most general unifier.**  What it returns is one; what it fails on, with a
mismatch or a failed occurs check, no substitution makes equal. -/
theorem unify_mostGeneral (a b : Ty) :
    match unify a b with
    | .ok s => MostGeneralUnifier a b s
    | .error e => e.fault.IsClash ∧ ∀ u : Subst, u.apply a ≠ u.apply b := by
  cases hu : unify a b with
  | ok s => exact unify_mostGeneralUnifier hu
  | error e =>
      have hspec := unifyAll_spec [(a, b)]
      rw [show unifyAll [(a, b)] = .error e from hu] at hspec
      refine ⟨hspec.1, fun u h => hspec.2 u.image (unifiedBy_pair.mpr ?_)⟩
      rwa [← Subst.apply_eq_assign, ← Subst.apply_eq_assign]

end Polytype
