/-
# Polytype.Proofs.Inference.Completeness — inference finds every type there is.

If the rules give a type to an expression, inference succeeds on it, and its type becomes the given one
under a suitable assignment (`expr_complete`).  For a whole program this says that the scheme which is
found is principal: every type of the body is an instance of it (`typecheck_principal`).

Four forms are left out, because what inference makes of them depends on how much it knows at that
point: the ordering operators, the components of a tuple, the fields of a record, and the patterns of
records (`Expr.Plain`).

The induction goes the way of a run.  At every point of it the run has *reached* a substitution, and
there is an assignment that solves the substitution and gives the types of the derivation
(`Reaches`).  The next step draws variables, for which the assignment is free to choose, and unifies
types that the assignment makes equal; so the step succeeds, and the assignment still solves what comes
out.
-/
import Polytype.Proofs.Coverage.Soundness
import Polytype.Proofs.Inference.Soundness

namespace Polytype

/-! ## Plain expressions -/

/-- There is no record pattern in it. -/
inductive Pattern.Plain : Pattern → Prop
  | wildcard : Plain .wildcard
  | var (name : String) : Plain (.var name)
  | int (n : Int) : Plain (.int n)
  | bool (b : Bool) : Plain (.bool b)
  | con {name : String} {args : List Pattern} : (∀ p ∈ args, Plain p) → Plain (.con name args)
  | tuple {elems : List Pattern} : (∀ p ∈ elems, Plain p) → Plain (.tuple elems)

/-- There is no ordering operator in it, no tuple projection, no field access and no record pattern. -/
inductive Expr.Plain : Expr → Prop
  | lit (l : Literal) : Plain (.lit l)
  | var (name : String) : Plain (.var name)
  | lam {param : String} {ascription : Option TypeExpr} {body : Expr} :
      Plain body → Plain (.lam param ascription body)
  | app {fn arg : Expr} : Plain fn → Plain arg → Plain (.app fn arg)
  | letIn {name : String} {ascription : Option TypeExpr} {value body : Expr} :
      Plain value → Plain body → Plain (.letIn name ascription value body)
  | letRec {name : String} {ascription : Option TypeExpr} {value body : Expr} :
      Plain value → Plain body → Plain (.letRec name ascription value body)
  | ite {cond thenBranch elseBranch : Expr} :
      Plain cond → Plain thenBranch → Plain elseBranch → Plain (.ite cond thenBranch elseBranch)
  | binop {op : String} {left right : Expr} :
      op ∉ ["<", "<=", ">", ">="] → Plain left → Plain right → Plain (.binop op left right)
  | construct {name : String} {args : List Expr} :
      (∀ e ∈ args, Plain e) → Plain (.construct name args)
  | tuple {elems : List Expr} : (∀ e ∈ elems, Plain e) → Plain (.tuple elems)
  | record {fields : List (String × Expr)} : (∀ f ∈ fields, Plain f.2) → Plain (.record fields)
  | range {first last : Expr} : Plain first → Plain last → Plain (.range first last)
  | matchOn {scrutinee : Expr} {arms : List (Pattern × Expr)} :
      Plain scrutinee → (∀ arm ∈ arms, arm.1.Plain) → (∀ arm ∈ arms, Plain arm.2) →
      Plain (.matchOn scrutinee arms)

/-! ## Points of a run -/

/-- A run from `n` has come to the substitution `s` by the time that `n₁` is the next variable, and `g`
solves `s` without a change to what `f` says about the variables from before the run. -/
structure Reaches (W : Set TyVar) (n : TyVar) (f : Assignment) (n₁ : TyVar) (s : Subst)
    (g : Assignment) : Prop where
  threaded : s.Threaded W n n₁
  agree : f.Agree n g
  solved : s.SolvedBy g

namespace Reaches

variable {W : Set TyVar} {n n₁ n₂ : TyVar} {f g g' : Assignment} {s u : Subst} {t a b : Ty} {Γ Δ : Env}

theorem start (hW : Below W n) (hn : n ≤ n₁) (hfg : f.Agree n g) : Reaches W n f n₁ ∅ g :=
  ⟨.empty hW hn, hfg, Subst.solvedBy_empty g⟩

/-- A run may begin with a unification, over variables some of which are new. -/
theorem of_unify (hW : Below W n) (hn : n ≤ n₁) (hfg : f.Agree n g) (ha : a.Within (grow W n n₁))
    (hb : b.Within (grow W n n₁)) (hab : a.assign g = b.assign g) :
    ∃ u, Polytype.unify a b = .ok u ∧ Reaches W n f n₁ u g := by
  obtain ⟨u, hu, hsolved⟩ := unify_of_assign_eq hab
  exact ⟨u, hu, .of_unify hW hn ha hb hu, hfg, hsolved⟩

theorem draw (h : Reaches W n f n₁ s g) (hn : n₁ ≤ n₂) (hgg' : g.Agree n₁ g') :
    Reaches W n f n₂ s g' := by
  refine ⟨h.threaded.draw hn, h.agree.trans h.threaded.le hgg', ?_⟩
  exact h.threaded.settled.solvedBy_congr h.solved fun v hv => hgg' v (h.threaded.below_grow v hv)

/-- A run may be counted from an earlier state. -/
theorem of_grow (hW : Below W n) (hn : n ≤ n₁) (hfg : f.Agree n g)
    (h : Reaches (grow W n n₁) n₁ g n₂ s g') : Reaches W n f n₂ s g' :=
  ⟨.of_grow hW hn h.threaded, hfg.trans hn h.agree, h.solved⟩

theorem next (h : Reaches W n f n₁ s g) (hu : u.Threaded (scopeAfter W n n₁ s) n₁ n₂)
    (hgg' : g.Agree n₁ g') (hg' : u.SolvedBy g') : Reaches W n f n₂ (u.comp s) g' := by
  have h' := h.draw hu.le hgg'
  exact ⟨h.threaded.comp hu, h'.agree, (h.threaded.solvedBy_comp hu).mpr ⟨h'.solved, hg'⟩⟩

/-- Later choices do not change the types that are known by now. -/
theorem assign_eq (h : Reaches W n f n₁ s g) (hgg' : g.Agree n₁ g') (ht : t.Within (grow W n n₁)) :
    t.assign g' = t.assign g :=
  hgg'.assign_eq h.threaded.below_grow ht

theorem map_assign_eq (h : Reaches W n f n₁ s g) (hgg' : g.Agree n₁ g') {ts : List Ty}
    (hts : ∀ t ∈ ts, t.Within (grow W n n₁)) : ts.map (Ty.assign g') = ts.map (Ty.assign g) :=
  List.map_congr_left fun t ht => h.assign_eq hgg' (hts t ht)

/-- Types that the assignment makes equal can be unified here. -/
theorem unify (h : Reaches W n f n₁ s g) (ha : a.Within (scopeAfter W n n₁ s))
    (hb : b.Within (scopeAfter W n n₁ s)) (hab : a.assign g = b.assign g) :
    ∃ u, Polytype.unify a b = .ok u ∧ u.SolvedBy g ∧
      u.Threaded (scopeAfter W n n₁ s) n₁ n₁ ∧ Reaches W n f n₁ (u.comp s) g := by
  obtain ⟨u, hu, hsolved⟩ := unify_of_assign_eq hab
  have hthr := h.threaded.unify ha hb hu
  exact ⟨u, hu, hsolved, hthr, h.next hthr (.refl n₁ g) hsolved⟩

theorem admits (h : Reaches W n f n₁ s g) (hΓ : Γ.Clean W n) (hΔ : Env.Admits f Γ Δ) :
    Env.Admits g (Γ.apply s) Δ :=
  (hΔ.agree hΓ h.agree).apply hΓ h.threaded h.solved

end Reaches

namespace Infer

variable {r : Registry} {c : InferContext} {W : Set TyVar} {n : TyVar} {f : Assignment}

/-! ## Patterns -/

theorem map_freshTys_extend_params {info : ConstructorInfo} {ts : List Ty}
    (hlen : ts.length = info.typeParams.length) (f : Assignment) (n : TyVar) :
    (freshTys n info.paramCount).map (Ty.assign (f.extend n ts)) = ts := by
  rw [ConstructorInfo.paramCount, ← hlen, Assignment.map_freshTys_extend]

/-- Whatever the rules allow for the pattern, inference finds. -/
def CompletePattern (r : Registry) (p : Pattern) : Prop :=
  ∀ ⦃W : Set TyVar⦄ ⦃t T : Ty⦄ ⦃st : InferState⦄ ⦃f : Assignment⦄ ⦃bs : List (String × Ty)⦄,
    p.Plain → Below W st.next → t.Within W → t.assign f = T → PatternType r p T bs →
    ∃ pt st' g, (pattern r p t).start st = (.ok pt, st') ∧ f.Agree st.next g ∧
      pt.subst.SolvedBy g ∧ assignAll g pt.bindings = bs

theorem patternList_complete (hr : r.WellFormed) {ps : List Pattern}
    (ih : ∀ p ∈ ps, CompletePattern r p) (hplain : ∀ p ∈ ps, p.Plain) :
    ∀ {ts : List Ty} {s : Subst} {st : InferState} {g : Assignment} {bs : List (String × Ty)},
      Reaches W n f st.next s g → (∀ t ∈ ts, t.Within (grow W n st.next)) →
      PatternTypes r ps (ts.map (Ty.assign g)) bs →
      ∃ pt st' g', (patternList r ps ts s).start st = (.ok pt, st') ∧ g.Agree st.next g' ∧
        pt.subst.SolvedBy g' ∧ assignAll g' pt.bindings = bs := by
  induction ps with
  | nil =>
      intro ts s st g bs hreach _ hps
      generalize ts.map (Ty.assign g) = Ts at hps
      cases hps
      exact ⟨_, st, g, start_patternList_nil.mpr ⟨rfl, rfl⟩, .refl _ g, hreach.solved, rfl⟩
  | cons p ps ihps =>
      intro ts s st g bs hreach hts hps
      obtain ⟨ihp, ih⟩ := List.forall_mem_cons.mp ih
      obtain ⟨hp, hplain⟩ := List.forall_mem_cons.mp hplain
      cases ts with
      | nil => cases hps
      | cons t ts =>
          obtain ⟨ht, hts⟩ := List.forall_mem_cons.mp hts
          rw [List.map_cons] at hps
          cases hps with
          | cons hhead htail =>
              have hwithin := hreach.threaded.apply_within ht
              obtain ⟨here, st₁, g₁, hrun, hagree, hsolved, hbs⟩ :=
                ihp hp hreach.threaded.below_scopeAfter hwithin (hreach.solved.assign_apply t) hhead
              have htidy := pattern_tidy hr p hreach.threaded.below_scopeAfter hwithin hrun
              have hreach₁ := hreach.next htidy.threaded hagree hsolved
              rw [← hreach.map_assign_eq hagree hts] at htail
              obtain ⟨rest, st₂, g₂, hrest, hagree₂, hsolved₂, hbs₂⟩ := ihps ih hplain hreach₁
                (fun u hu => (hts u hu).mono (grow_mono_next W n htidy.threaded.le)) htail
              refine ⟨_, st₂, g₂, start_patternList_cons.mpr ⟨_, _, _, _, hrun, hrest, rfl, rfl⟩,
                hagree.trans htidy.threaded.le hagree₂, hsolved₂, ?_⟩
              -- the variables of the first pattern keep their types
              have hkeep : assignAll g₂ here.bindings = assignAll g₁ here.bindings := by
                refine List.map_congr_left fun b hb => ?_
                rw [hagree₂.assign_eq htidy.threaded.below_grow (htidy.within b hb)]
              rw [assignAll, List.map_append]
              exact congrArg₂ (· ++ ·) (hkeep.trans hbs) hbs₂

theorem CompletePattern.wildcard : CompletePattern r .wildcard := by
  intro W t T st f bs _ _ _ _ h
  cases h
  exact ⟨_, st, f, start_pure_ok.mpr ⟨rfl, rfl⟩, .refl _ f, Subst.solvedBy_empty f, rfl⟩

theorem CompletePattern.var (x : String) : CompletePattern r (.var x) := by
  intro W t T st f bs _ _ _ hT h
  cases h
  refine ⟨_, st, f, start_pure_ok.mpr ⟨rfl, rfl⟩, .refl _ f, Subst.solvedBy_empty f, ?_⟩
  rw [← hT]
  rfl

theorem CompletePattern.int (k : Int) : CompletePattern r (.int k) := by
  intro W t T st f bs _ _ _ hT h
  cases h
  obtain ⟨u, hu, hsolved⟩ := unify_of_assign_eq (b := .int) hT
  exact ⟨_, st, f, start_pattern_int.mpr ⟨u, hu, rfl, rfl⟩, .refl _ f, hsolved, rfl⟩

theorem CompletePattern.bool (b : Bool) : CompletePattern r (.bool b) := by
  intro W t T st f bs _ _ _ hT h
  cases h
  obtain ⟨u, hu, hsolved⟩ := unify_of_assign_eq (b := .bool) hT
  exact ⟨_, st, f, start_pattern_bool.mpr ⟨u, hu, rfl, rfl⟩, .refl _ f, hsolved, rfl⟩

theorem CompletePattern.con (hr : r.WellFormed) {name : String} {args : List Pattern}
    (ih : ∀ p ∈ args, CompletePattern r p) : CompletePattern r (.con name args) := by
  intro W t T st f bs hplain hW ht hT h
  cases hplain with
  | con hplain =>
      cases h with
      | @con _ info _ ts _ hinfo hlen hargs =>
          have hbound : info.Bounded := hr.field_vars name info hinfo
          -- the variables drawn for the parameters become the types that the rule has for them
          have hfg := f.agree_extend st.next ts
          have hparams := map_freshTys_extend_params hlen f st.next
          have hresult : t.assign (f.extend st.next ts) =
              (info.instantiate st.next).result.assign (f.extend st.next ts) := by
            rw [hfg.assign_eq hW ht, hT, info.assign_result, hparams]
          obtain ⟨u, hu, hreach⟩ := Reaches.of_unify hW (le_add_count _ _) hfg
            (ht.mono (subset_grow _ _ _)) (info.within_result W st.next) hresult
          have hcount : args.length = info.arity := by
            simpa [ConstructorInfo.fieldsAt, ConstructorInfo.arity] using hargs.forall₂.length_eq
          rw [← hparams, ← ConstructorInfo.map_assign_instantiate hbound] at hargs
          have hreach : Reaches W st.next f (drawnTo st (st.next + info.paramCount)).next u _ :=
            hreach
          obtain ⟨pt, st', g, hrun, hagree, hout⟩ := patternList_complete hr ih hplain hreach
            (ConstructorInfo.within_fields hbound W st.next) hargs
          exact ⟨pt, st', g, start_pattern_con.mpr ⟨info, hinfo, hcount, u, hu, hrun⟩,
            hfg.trans (le_add_count _ _) hagree, hout⟩

theorem CompletePattern.tuple (hr : r.WellFormed) {elems : List Pattern}
    (ih : ∀ p ∈ elems, CompletePattern r p) : CompletePattern r (.tuple elems) := by
  intro W t T st f bs hplain hW ht hT h
  cases hplain with
  | tuple hplain =>
      cases h with
      | @tuple _ ts _ helems =>
          have hlen : elems.length = ts.length := helems.forall₂.length_eq
          have hfg := f.agree_extend st.next ts
          have hfresh := within_freshTys W st.next elems.length
          have hcomps :
              (freshTys st.next elems.length).map (Ty.assign (f.extend st.next ts)) = ts := by
            rw [hlen, Assignment.map_freshTys_extend]
          have hresult : t.assign (f.extend st.next ts) =
              (Ty.tuple (freshTys st.next elems.length)).assign (f.extend st.next ts) := by
            rw [hfg.assign_eq hW ht, hT, Ty.assign_tuple, hcomps]
          obtain ⟨u, hu, hreach⟩ := Reaches.of_unify hW (le_add_count _ _) hfg
            (ht.mono (subset_grow _ _ _)) (Ty.within_tuple.mpr hfresh) hresult
          rw [← hcomps] at helems
          have hreach : Reaches W st.next f (drawnTo st (st.next + elems.length)).next u _ := hreach
          obtain ⟨pt, st', g, hrun, hagree, hout⟩ :=
            patternList_complete hr ih hplain hreach hfresh helems
          exact ⟨pt, st', g, start_pattern_tuple.mpr ⟨u, hu, hrun⟩,
            hfg.trans (le_add_count _ _) hagree, hout⟩

theorem CompletePattern.record {fields : List (String × Pattern)} :
    CompletePattern r (.record fields) := by
  intro W t T st f bs hplain
  cases hplain

theorem pattern_complete (hr : r.WellFormed) (p : Pattern) : CompletePattern r p := by
  induction p with
  | wildcard => exact .wildcard
  | var x => exact .var x
  | int k => exact .int k
  | bool b => exact .bool b
  | con name args ih => exact .con hr ih
  | tuple elems ih => exact .tuple hr ih
  | record fields ih => exact .record

/-! ## Expressions -/

/-- Whatever type the rules give to the expression, inference finds. -/
def CompleteExpr (c : InferContext) (e : Expr) : Prop :=
  ∀ ⦃W : Set TyVar⦄ ⦃Γ Δ : Env⦄ ⦃st : InferState⦄ ⦃f : Assignment⦄ ⦃T : Ty⦄,
    e.Plain → Γ.Clean W st.next → Env.Admits f Γ Δ → HasType c.registry Δ e T →
    ∃ ty st' g, (expr c Γ e).start st = (.ok ty, st') ∧ f.Agree st.next g ∧
      ty.subst.SolvedBy g ∧ ty.type.assign g = T

/-- What is known after one more expression: a run that had reached `s`, with `g` to solve it, has gone
on to a typing whose type is `T` under `g'`. -/
structure Finds (W : Set TyVar) (n n₁ : TyVar) (s : Subst) (g : Assignment) (T : Ty) (n₂ : TyVar)
    (ty : Typing) (g' : Assignment) : Prop where
  threaded : ty.subst.Threaded (scopeAfter W n n₁ s) n₁ n₂
  within : ty.type.Within (scopeAfter W n n₂ (ty.subst.comp s))
  agree : g.Agree n₁ g'
  solved : ty.subst.SolvedBy g'
  assign_type : ty.type.assign g' = T

namespace Finds

variable {n₁ n₂ : TyVar} {s : Subst} {g g' : Assignment} {T t : Ty} {ty : Typing}

theorem reaches (h : Finds W n n₁ s g T n₂ ty g') (hreach : Reaches W n f n₁ s g) :
    Reaches W n f n₂ (ty.subst.comp s) g' :=
  hreach.next h.threaded h.agree h.solved

/-- A type from before, brought up to date, means what it meant. -/
theorem assign_apply (h : Finds W n n₁ s g T n₂ ty g') (hreach : Reaches W n f n₁ s g)
    (ht : t.Within (scopeAfter W n n₁ s)) : (ty.subst.apply t).assign g' = t.assign g := by
  rw [h.solved.assign_apply, hreach.assign_eq h.agree (ht.mono (live_subset _ _))]

end Finds

section Runs

variable {Γ Δ : Env} {s : Subst} {g : Assignment} {st : InferState} {e : Expr} {T : Ty}

/-- A first run. -/
theorem CompleteExpr.first (hr : c.registry.WellFormed) (he : CompleteExpr c e) (hplain : e.Plain)
    (hΓ : Γ.Clean W st.next) (hΔ : Env.Admits f Γ Δ) (hT : HasType c.registry Δ e T) :
    ∃ ty st' g, (expr c Γ e).start st = (.ok ty, st') ∧
      Reaches W st.next f st'.next ty.subst g ∧
      ty.type.Within (scopeAfter W st.next st'.next ty.subst) ∧ ty.type.assign g = T := by
  obtain ⟨ty, st', g, hrun, hagree, hsolved, hty⟩ := he hplain hΓ hΔ hT
  have htidy := expr_tidy hr e hΓ.below hΓ.free hrun
  exact ⟨ty, st', g, hrun, ⟨htidy.threaded, hagree, hsolved⟩, htidy.within, hty⟩

/-- A run that follows another one. -/
theorem CompleteExpr.next (hr : c.registry.WellFormed) (he : CompleteExpr c e) (hplain : e.Plain)
    (hreach : Reaches W n f st.next s g) {W' : Set TyVar} (hW : W' ⊆ scopeAfter W n st.next s)
    (hΓ : Γ.Clean W' st.next) (hΔ : Env.Admits g Γ Δ) (hT : HasType c.registry Δ e T) :
    ∃ ty st' g', (expr c Γ e).start st = (.ok ty, st') ∧
      Finds W n st.next s g T st'.next ty g' := by
  obtain ⟨ty, st', g', hrun, hagree, hsolved, hty⟩ := he hplain hΓ hΔ hT
  obtain ⟨hthr, hwithin⟩ := (expr_tidy hr e).next hreach.threaded (hΓ.free.mono hW) hrun
  exact ⟨ty, st', g', hrun, hthr, hwithin, hagree, hsolved, hty⟩

/-- The same in the environment of the whole expression. -/
theorem CompleteExpr.nextApply (hr : c.registry.WellFormed) (he : CompleteExpr c e) (hplain : e.Plain)
    (hreach : Reaches W n f st.next s g) (hΓ : Γ.Clean W n) (hΔ : Env.Admits f Γ Δ)
    (hT : HasType c.registry Δ e T) :
    ∃ ty st' g', (expr c (Γ.apply s) e).start st = (.ok ty, st') ∧
      Finds W n st.next s g T st'.next ty g' :=
  he.next hr hplain hreach subset_rfl (hΓ.apply hreach.threaded) (hreach.admits hΓ hΔ) hT

/-- The body of a `let`, after its value. -/
theorem CompleteExpr.nextLet (hr : c.registry.WellFormed) (he : CompleteExpr c e) (hplain : e.Plain)
    (hreach : Reaches W n f st.next s g) (hΓ : Γ.Clean W n) (hΔ : Env.Admits f Γ Δ) {t : Ty}
    (ht : t.Within (scopeAfter W n st.next s)) {σ : Scheme} (hσ : Δ.Generalizes (t.assign g) σ)
    {x : String} (hT : HasType c.registry (Δ.insert x σ) e T) :
    ∃ ty st' g', (expr c ((Γ.apply s).insert x ((Γ.apply s).generalize t)) e).start st =
        (.ok ty, st') ∧ Finds W n st.next s g T st'.next ty g' :=
  he.next hr hplain hreach (fun _ hv => hv.1) ((hΓ.apply hreach.threaded).generalize ht x)
    ((hreach.admits hΓ hΔ).generalize hσ x) hT

/-- An ascription that the type meets. -/
theorem ascribe_complete (hr : r.WellFormed) {ascription : Option TypeExpr} {vt : Typing}
    (hreach : Reaches W n f st.next vt.subst g)
    (hwithin : vt.type.Within (scopeAfter W n st.next vt.subst)) (hT : vt.type.assign g = T)
    (hmet : Ascribed r.toTypeTable ascription T) :
    ∃ ty st' g', (ascribe r ascription vt).start st = (.ok ty, st') ∧
      Reaches W n f st'.next ty.subst g' ∧
      ty.type.Within (scopeAfter W n st'.next ty.subst) ∧ ty.type.assign g' = T := by
  cases ascription with
  | none => exact ⟨vt, st, g, start_pure_ok.mpr ⟨rfl, rfl⟩, hreach, hwithin, hT⟩
  | some a =>
      obtain ⟨t, st₁, g₁, hrun, hagree, ht⟩ := ascribedOrFresh_complete hr hmet g st
      obtain ⟨hle, hnew, -⟩ := ascribedOrFresh_sound hr hrun
      have hreach₁ := hreach.draw hle hagree
      have hwithin₁ := hwithin.mono (hreach.threaded.scopeAfter_subset_draw hle)
      have htype : vt.type.assign g₁ = T := by
        rw [hreach.assign_eq hagree (hwithin.mono (live_subset _ _)), hT]
      obtain ⟨u, hu, hsolved, hthr, hreach₂⟩ := hreach₁.unify hwithin₁
        (within_scopeAfter_of_new hreach.threaded hnew) (htype.trans ht.symm)
      refine ⟨_, st₁, g₁, start_ascribe_some.mpr ⟨t, st₁, hrun, u, hu, rfl, rfl⟩, hreach₂,
        hreach₁.threaded.within_comp hthr hwithin₁, ?_⟩
      rw [hsolved.assign_apply, htype]

end Runs

/-! ## Lists of expressions -/

section Lists

variable {Γ Δ : Env} (hr : c.registry.WellFormed) (hΓ : Γ.Clean W n) (hΔ : Env.Admits f Γ Δ)
include hr hΓ hΔ

theorem exprArgs_complete {es : List Expr} (ih : ∀ e ∈ es, CompleteExpr c e)
    (hplain : ∀ e ∈ es, e.Plain) :
    ∀ {ts : List Ty} {s : Subst} {st : InferState} {g : Assignment},
      Reaches W n f st.next s g → (∀ t ∈ ts, t.Within (grow W n st.next)) →
      HaveTypes c.registry Δ es (ts.map (Ty.assign g)) →
      ∃ s' st' g', (exprArgs c Γ es ts s).start st = (.ok s', st') ∧ g.Agree st.next g' ∧
        s'.SolvedBy g' := by
  induction es with
  | nil =>
      intro ts s st g hreach _ _
      exact ⟨s, st, g, start_exprArgs_nil.mpr ⟨rfl, rfl⟩, .refl _ g, hreach.solved⟩
  | cons e es ihes =>
      intro ts s st g hreach hts htypes
      obtain ⟨ihe, ih⟩ := List.forall_mem_cons.mp ih
      obtain ⟨he, hplain⟩ := List.forall_mem_cons.mp hplain
      cases ts with
      | nil => cases htypes
      | cons t ts =>
          obtain ⟨ht, hts⟩ := List.forall_mem_cons.mp hts
          rw [List.map_cons] at htypes
          cases htypes with
          | cons hhead htail =>
              obtain ⟨xt, st₁, g₁, hx, hfind⟩ := ihe.nextApply hr he hreach hΓ hΔ hhead
              have hreach₁ := hfind.reaches hreach
              have hle := hfind.threaded.le
              -- the type of the argument is the one that is expected of it
              have hexpected : ((xt.subst.comp s).apply t).assign g₁ = xt.type.assign g₁ := by
                rw [hreach₁.solved.assign_apply, hreach.assign_eq hfind.agree ht, hfind.assign_type]
              obtain ⟨u, hu, -, -, hreach₂⟩ := hreach₁.unify
                (hreach₁.threaded.apply_within (ht.mono (grow_mono_next W n hle))) hfind.within
                hexpected
              rw [← hreach.map_assign_eq hfind.agree hts] at htail
              obtain ⟨s', st₂, g₂, hrest, hagree, hsolved⟩ := ihes ih hplain hreach₂
                (fun v hv => (hts v hv).mono (grow_mono_next W n hle)) htail
              exact ⟨s', st₂, g₂, start_exprArgs_cons.mpr ⟨xt, st₁, hx, u, hu, hrest⟩,
                hfind.agree.trans hle hagree, hsolved⟩

theorem exprList_complete {es : List Expr} (ih : ∀ e ∈ es, CompleteExpr c e)
    (hplain : ∀ e ∈ es, e.Plain) :
    ∀ {Ts : List Ty} {s : Subst} {st : InferState} {g : Assignment},
      Reaches W n f st.next s g → HaveTypes c.registry Δ es Ts →
      ∃ s' ts st' g', (exprList c Γ es s).start st = (.ok (s', ts), st') ∧ g.Agree st.next g' ∧
        s'.SolvedBy g' ∧ ts.map (Ty.assign g') = Ts := by
  induction es with
  | nil =>
      intro Ts s st g hreach htypes
      cases htypes
      exact ⟨s, [], st, g, start_exprList_nil.mpr ⟨rfl, rfl⟩, .refl _ g, hreach.solved, rfl⟩
  | cons e es ihes =>
      intro Ts s st g hreach htypes
      obtain ⟨ihe, ih⟩ := List.forall_mem_cons.mp ih
      obtain ⟨he, hplain⟩ := List.forall_mem_cons.mp hplain
      cases htypes with
      | cons hhead htail =>
          obtain ⟨xt, st₁, g₁, hx, hfind⟩ := ihe.nextApply hr he hreach hΓ hΔ hhead
          have hreach₁ := hfind.reaches hreach
          obtain ⟨s', ts, st₂, g₂, hrest, hagree, hsolved, hts⟩ := ihes ih hplain hreach₁ htail
          refine ⟨s', xt.type :: ts, st₂, g₂,
            start_exprList_cons.mpr ⟨xt, st₁, hx, s', ts, st₂, hrest, rfl, rfl⟩,
            hfind.agree.trans hfind.threaded.le hagree, hsolved, ?_⟩
          rw [List.map_cons, hts, hreach₁.assign_eq hagree (hfind.within.mono (live_subset _ _)),
            hfind.assign_type]

theorem exprArms_complete {arms : List (Pattern × Expr)} (ih : ∀ arm ∈ arms, CompleteExpr c arm.2)
    (hpats : ∀ arm ∈ arms, arm.1.Plain) (hplain : ∀ arm ∈ arms, arm.2.Plain) {a b A B : Ty} :
    ∀ {s : Subst} {st : InferState} {g : Assignment}, Reaches W n f st.next s g →
      a.Within (grow W n st.next) → b.Within (grow W n st.next) → a.assign g = A → b.assign g = B →
      ArmsHaveType c.registry Δ A arms B →
      ∃ s' st' g', (exprArms c Γ a b arms s).start st = (.ok s', st') ∧ g.Agree st.next g' ∧
        s'.SolvedBy g' := by
  induction arms with
  | nil =>
      intro s st g hreach _ _ _ _ _
      exact ⟨s, st, g, start_exprArms_nil.mpr ⟨rfl, rfl⟩, .refl _ g, hreach.solved⟩
  | cons arm arms iharms =>
      intro s st g hreach ha hb hA hB htypes
      obtain ⟨p, e⟩ := arm
      obtain ⟨ihe, ih⟩ := List.forall_mem_cons.mp ih
      obtain ⟨hpat, hpats⟩ := List.forall_mem_cons.mp hpats
      obtain ⟨he, hplain⟩ := List.forall_mem_cons.mp hplain
      cases htypes with
      | cons hp hbody hrest =>
          have hexp := hreach.threaded.apply_within ha
          have hbelow := hreach.threaded.below_scopeAfter
          obtain ⟨pt, st₁, g₁, hprun, hagree₁, hsolved₁, hbs⟩ := pattern_complete hr p hpat hbelow hexp
            ((hreach.solved.assign_apply a).trans hA) hp
          have hptidy := pattern_tidy hr p hbelow hexp hprun
          have hreach₁ := hreach.next hptidy.threaded hagree₁ hsolved₁
          -- in the body the variables of the pattern have the types that the rule gives them
          have hΓ₁ := (hΓ.apply hreach₁.threaded).bindAll (within_bindings hreach.threaded hptidy)
          have hΔ₁ := (hreach₁.admits hΓ hΔ).bindAll
            (pt.bindings.map fun b => (b.1, (pt.subst.comp s).apply b.2))
          rw [assignAll_apply hreach₁.solved, hbs] at hΔ₁
          obtain ⟨bt, st₂, g₂, hrun, hfind⟩ := ihe.next hr he hreach₁ subset_rfl hΓ₁ hΔ₁ hbody
          have hreach₂ := hfind.reaches hreach₁
          have hle := Int.le_trans hptidy.threaded.le hfind.threaded.le
          have hagree₂ := hagree₁.trans hptidy.threaded.le hfind.agree
          have hb₂ := hb.mono (grow_mono_next W n hle)
          have hresult : ((bt.subst.comp (pt.subst.comp s)).apply b).assign g₂ =
              bt.type.assign g₂ := by
            rw [hreach₂.solved.assign_apply, hreach.assign_eq hagree₂ hb, hB, hfind.assign_type]
          obtain ⟨u, hu, -, -, hreach₃⟩ := hreach₂.unify (hreach₂.threaded.apply_within hb₂)
            hfind.within hresult
          obtain ⟨s', st₃, g₃, hruns, hagree₃, hsolved⟩ := iharms ih hpats hplain hreach₃
            (ha.mono (grow_mono_next W n hle)) hb₂ ((hreach.assign_eq hagree₂ ha).trans hA)
            ((hreach.assign_eq hagree₂ hb).trans hB) hrest
          exact ⟨s', st₃, g₃,
            start_exprArms_cons.mpr ⟨pt, st₁, hprun, bt, st₂, hrun, u, hu, hruns⟩,
            hagree₂.trans hle hagree₃, hsolved⟩

end Lists

/-! ## Operators and coverage -/

/-- What the rules say about an operator that is not an ordering. -/
theorem binop_inversion {Δ : Env} {op : String} {left right : Expr} {T : Ty}
    (hop : op ∉ ["<", "<=", ">", ">="]) (h : HasType r Δ (.binop op left right) T) :
    ∃ kind a b, operatorKind? op = some kind ∧ kind ≠ .ordering ∧ HasType r Δ left a ∧
      HasType r Δ right b ∧ OperandsMeet kind a b ∧ resultType kind = T := by
  cases h with
  | arithmetic hmem hl hright =>
      exact ⟨.arithmetic, .int, .int, if_pos hmem, by decide, hl, hright, ⟨rfl, rfl⟩, rfl⟩
  | ordering hmem => exact absurd hmem hop
  | equality hmem hl hright =>
      have hkind : operatorKind? op = some .equality := by
        have hop' : op = "==" ∨ op = "!=" := by simpa using hmem
        rcases hop' with rfl | rfl <;> rfl
      exact ⟨.equality, _, _, hkind, by decide, hl, hright, rfl, rfl⟩

theorem operands_complete {kind : OperatorKind} (hkind : kind ≠ .ordering) {a b : Ty}
    (h : OperandsMeet kind (a.assign f) (b.assign f)) :
    ∃ u, operands kind a b = .ok u ∧ u.SolvedBy f := by
  cases kind with
  | ordering => exact absurd rfl hkind
  | equality => exact unify_of_assign_eq h
  | arithmetic =>
      obtain ⟨ha, hb⟩ := h
      obtain ⟨s₁, hs₁, hf₁⟩ := unify_of_assign_eq (b := .int) ha
      obtain ⟨s₂, hs₂, hf₂⟩ := unify_of_assign_eq (b := .int) ((hf₁.assign_apply b).trans hb)
      refine ⟨s₂.comp s₁, ?_, hf₂.comp hf₁⟩
      simp only [operands, bind_eq_ok_iff, pure_eq_ok_iff]
      exact ⟨s₁, hs₁, s₂, hs₂, rfl⟩

theorem length_of_haveTypes {Δ : Env} {es : List Expr} {Ts : List Ty} (h : HaveTypes r Δ es Ts) :
    es.length = Ts.length := by
  induction es generalizing Ts with
  | nil =>
      cases h
      rfl
  | cons e es ih =>
      cases h with
      | cons _ hes => rw [List.length_cons, List.length_cons, ih hes]

/-- The patterns of a typed match are all of one type. -/
theorem allTyped_of_arms {Δ : Env} {A B : Ty} {arms : List (Pattern × Expr)}
    (h : ArmsHaveType r Δ A arms B) : Coverage.AllTyped r (arms.map Prod.fst) A := by
  induction arms with
  | nil => exact fun p hp => absurd hp List.not_mem_nil
  | cons arm arms ih =>
      cases h with
      | cons hp _ hrest => exact List.forall_mem_cons.mpr ⟨⟨_, hp⟩, ih hrest⟩

/-- The coverage check never fails on a typed match. -/
theorem coverage_complete (hr : c.registry.WellFormed) {ps : List Pattern} {A : Ty}
    (h : Coverage.AllTyped c.registry ps A) (st : InferState) :
    ∃ st', (coverage c ps).start st = (.ok (), st') := by
  obtain ⟨gs, hgs, -⟩ := Coverage.gaps_spec hr ps h
  have hmissing : Coverage.missingCases c.registry ps = .ok (gs.map Gap.render) :=
    bind_eq_ok_iff.mpr ⟨gs, hgs, rfl⟩
  rw [start_coverage, hmissing]
  split
  · exact ⟨_, rfl⟩
  · exact ⟨_, rfl⟩

/-! ## The induction -/

theorem CompleteExpr.lit (l : Literal) : CompleteExpr c (.lit l) := by
  intro W Γ Δ st f T _ _ _ hT
  have hlit : (expr c Γ (.lit l)).start st = (.ok ⟨∅, l.type⟩, st) := rfl
  refine ⟨_, st, f, hlit, .refl _ f, Subst.solvedBy_empty f, ?_⟩
  cases hT <;> rfl

theorem CompleteExpr.var (x : String) : CompleteExpr c (.var x) := by
  intro W Γ Δ st f T _ hΓ hΔ hT
  cases hT with
  | @var _ _ τ _ hτ hinst =>
      obtain ⟨σ, hσ⟩ := hΔ.exists_scheme x τ hτ
      obtain ⟨g, hagree, hg⟩ := (hΔ.instanceUnder x σ τ hσ hτ T hinst).exists_agree
        fun v hv hq => hΓ.below v (hΓ.free v ⟨x, σ, hσ, hv, hq⟩)
      exact ⟨_, _, g, start_expr_var.mpr ⟨σ, hσ, rfl, rfl⟩, hagree, Subst.solvedBy_empty g, hg⟩

theorem CompleteExpr.lam (hr : c.registry.WellFormed)
    {x : String} {ascription : Option TypeExpr} {body : Expr} (ih : CompleteExpr c body) :
    CompleteExpr c (.lam x ascription body) := by
  intro W Γ Δ st f T hplain hΓ hΔ hT
  cases hplain with
  | lam hplain =>
      cases hT with
      | lam hmet hbody =>
          obtain ⟨dom, st₁, g₁, hdom, hagree, rfl⟩ := ascribedOrFresh_complete hr hmet f st
          obtain ⟨hle, hnew, -⟩ := ascribedOrFresh_sound hr hdom
          have hdomW := hnew.mono (grow_subset (Set.empty_subset W) st.next st₁.next)
          have hΓ₁ := (hΓ.grow hle).bindTy hdomW x
          have hΔ₁ := (hΔ.agree hΓ hagree).bindTy x dom
          obtain ⟨bt, st₂, g₂, hrun, hagree₂, hsolved, rfl⟩ := ih hplain hΓ₁ hΔ₁ hbody
          refine ⟨_, st₂, g₂, start_expr_lam.mpr ⟨dom, st₁, hdom, bt, st₂, hrun, rfl, rfl⟩,
            hagree.trans hle hagree₂, hsolved, ?_⟩
          rw [Ty.assign_fn, hsolved.assign_apply, hagree₂.assign_eq hΓ₁.below hdomW]

theorem CompleteExpr.app (hr : c.registry.WellFormed) {fn arg : Expr} (ihf : CompleteExpr c fn)
    (iha : CompleteExpr c arg) : CompleteExpr c (.app fn arg) := by
  intro W Γ Δ st f T hplain hΓ hΔ hT
  cases hplain with
  | app hplainf hplaina =>
      cases hT with
      | @app _ _ _ A _ hfun harg =>
          obtain ⟨ft, st₁, g₁, hf, hreach₁, hwithin, hfT⟩ := ihf.first hr hplainf hΓ hΔ hfun
          obtain ⟨xt, st₂, g₂, hx, hfind⟩ := iha.nextApply hr hplaina hreach₁ hΓ hΔ harg
          have hreach₂ := hfind.reaches hreach₁
          have hnext := Int.le_of_lt (lt_succ st₂.next)
          -- the new variable becomes the type of the application
          have hagree := g₂.agree_extend st₂.next [T]
          have hvar := g₂.extend_singleton st₂.next T
          have hreach₃ := hreach₂.draw hnext hagree
          have hfn := hreach₁.threaded.within_comp hfind.threaded hwithin
          have hgrow := hreach₂.threaded.scopeAfter_subset_draw hnext
          have hresult : (Ty.var st₂.next).Within (scopeAfter W st.next (st₂.next + 1) _) :=
            Ty.within_var.mpr (hreach₂.threaded.mem_scopeAfter_draw (Int.le_refl _) (lt_succ _))
          have hmatch : (xt.subst.apply ft.type).assign (g₂.extend st₂.next [T]) =
              (Ty.fn xt.type (.var st₂.next)).assign (g₂.extend st₂.next [T]) := by
            rw [hreach₂.assign_eq hagree (hfn.mono (live_subset _ _)),
              hfind.assign_apply hreach₁ hwithin, hfT, Ty.assign_fn,
              hreach₂.assign_eq hagree (hfind.within.mono (live_subset _ _)),
              hfind.assign_type, Ty.assign_var, hvar]
          obtain ⟨u, hu, hsolved, -, hreach₄⟩ := hreach₃.unify (hfn.mono hgrow)
            (Ty.within_fn.mpr ⟨hfind.within.mono hgrow, hresult⟩) hmatch
          refine ⟨_, _, _, start_expr_app.mpr ⟨ft, st₁, hf, xt, st₂, hx, u, hu, rfl, rfl⟩,
            hreach₄.agree, hreach₄.solved, ?_⟩
          exact (hsolved st₂.next).trans hvar

theorem CompleteExpr.letIn (hr : c.registry.WellFormed)
    {x : String} {ascription : Option TypeExpr} {value body : Expr} (ihv : CompleteExpr c value)
    (ihb : CompleteExpr c body) : CompleteExpr c (.letIn x ascription value body) := by
  intro W Γ Δ st f T hplain hΓ hΔ hT
  cases hplain with
  | letIn hplainv hplainb =>
      cases hT with
      | letIn hvalue hmet hσ hbody =>
          obtain ⟨vt, st₁, g₁, hv, hreach₁, hwithin₁, hvT⟩ := ihv.first hr hplainv hΓ hΔ hvalue
          obtain ⟨xt, st₂, g₂, hx, hreach₂, hwithin₂, rfl⟩ :=
            ascribe_complete hr hreach₁ hwithin₁ hvT hmet
          -- the inferred scheme is at least as general as the one in the derivation
          obtain ⟨bt, st₃, g₃, hb, hfind⟩ :=
            ihb.nextLet hr hplainb hreach₂ hΓ hΔ hwithin₂ hσ hbody
          have hreach₃ := hfind.reaches hreach₂
          exact ⟨_, st₃, g₃,
            start_expr_letIn.mpr ⟨vt, st₁, hv, xt, st₂, hx, bt, st₃, hb, rfl, rfl⟩,
            hreach₃.agree, hreach₃.solved, hfind.assign_type⟩

theorem CompleteExpr.letRec (hr : c.registry.WellFormed)
    {x : String} {ascription : Option TypeExpr} {value body : Expr} (ihv : CompleteExpr c value)
    (ihb : CompleteExpr c body) : CompleteExpr c (.letRec x ascription value body) := by
  intro W Γ Δ st f T hplain hΓ hΔ hT
  cases hplain with
  | letRec hplainv hplainb =>
      cases hT with
      | letRec hmet hvalue hσ hbody =>
          obtain ⟨self, st₁, g₁, hself, hagree, rfl⟩ := ascribedOrFresh_complete hr hmet f st
          obtain ⟨hle, hnew, -⟩ := ascribedOrFresh_sound hr hself
          have hselfW := hnew.mono (grow_subset (Set.empty_subset W) st.next st₁.next)
          have hΓ₁ := (hΓ.grow hle).bindTy hselfW x
          have hΔ₁ := (hΔ.agree hΓ hagree).bindTy x self
          obtain ⟨vt, st₂, g₂, hv, hrec, hwithin, hvT⟩ := ihv.first hr hplainv hΓ₁ hΔ₁ hvalue
          have hreach₂ := Reaches.of_grow hΓ.below hle hagree hrec
          rw [Subst.Threaded.scopeAfter_grow hle hrec.threaded] at hwithin
          have hself₂ := hreach₂.threaded.apply_within
            (hselfW.mono (grow_mono_next W _ hrec.threaded.le))
          -- the value has the type that its variable has inside it
          have hmatch : (vt.subst.apply self).assign g₂ = vt.type.assign g₂ := by
            rw [hreach₂.solved.assign_apply, hrec.agree.assign_eq hΓ₁.below hselfW, hvT]
          obtain ⟨u, hu, hsolved, hthr, hreach₃⟩ := hreach₂.unify hself₂ hwithin hmatch
          rw [← hvT, ← hsolved.assign_apply] at hσ
          obtain ⟨bt, st₃, g₃, hb, hfind⟩ := ihb.nextLet hr hplainb hreach₃ hΓ hΔ
            (hreach₂.threaded.within_comp hthr hwithin) hσ hbody
          have hreach₄ := hfind.reaches hreach₃
          exact ⟨_, st₃, g₃,
            start_expr_letRec.mpr ⟨self, st₁, hself, vt, st₂, hv, u, hu, bt, st₃, hb, rfl, rfl⟩,
            hreach₄.agree, hreach₄.solved, hfind.assign_type⟩

theorem CompleteExpr.ite (hr : c.registry.WellFormed) {cond thenBranch elseBranch : Expr}
    (ihc : CompleteExpr c cond) (iht : CompleteExpr c thenBranch) (ihe : CompleteExpr c elseBranch) :
    CompleteExpr c (.ite cond thenBranch elseBranch) := by
  intro W Γ Δ st f T hplain hΓ hΔ hT
  cases hplain with
  | ite hplainc hplaint hplaine =>
      cases hT with
      | ite hcond hthen helse =>
          obtain ⟨ct, st₁, g₁, hc, hreach₁, hwithin, hcT⟩ := ihc.first hr hplainc hΓ hΔ hcond
          obtain ⟨u₁, hu₁, -, -, hreach₂⟩ := hreach₁.unify hwithin (Ty.within_prim _ .bool) hcT
          obtain ⟨tt, st₂, g₂, ht, hfind₁⟩ := iht.nextApply hr hplaint hreach₂ hΓ hΔ hthen
          have hreach₃ := hfind₁.reaches hreach₂
          obtain ⟨et, st₃, g₃, he, hfind₂⟩ := ihe.nextApply hr hplaine hreach₃ hΓ hΔ helse
          have hreach₄ := hfind₂.reaches hreach₃
          have hmatch : (et.subst.apply tt.type).assign g₃ = et.type.assign g₃ := by
            rw [hfind₂.assign_apply hreach₃ hfind₁.within, hfind₁.assign_type, hfind₂.assign_type]
          obtain ⟨u₂, hu₂, hsolved, -, hreach₅⟩ := hreach₄.unify
            (hreach₃.threaded.within_comp hfind₂.threaded hfind₁.within) hfind₂.within hmatch
          refine ⟨_, st₃, g₃, start_expr_ite.mpr ⟨ct, st₁, hc, u₁, hu₁, tt, st₂, ht, et, st₃, he,
            u₂, hu₂, rfl, rfl⟩, hreach₅.agree, hreach₅.solved, ?_⟩
          rw [hsolved.assign_apply, hfind₂.assign_type]

theorem CompleteExpr.binop (hr : c.registry.WellFormed) {op : String} {left right : Expr}
    (ihl : CompleteExpr c left) (ihr : CompleteExpr c right) :
    CompleteExpr c (.binop op left right) := by
  intro W Γ Δ st f T hplain hΓ hΔ hT
  cases hplain with
  | binop hop hplainl hplainr =>
      obtain ⟨kind, a, b, hkind, hord, hleft, hright, hmeet, rfl⟩ := binop_inversion hop hT
      obtain ⟨lt, st₁, g₁, hl, hreach₁, hwithin, hlT⟩ := ihl.first hr hplainl hΓ hΔ hleft
      obtain ⟨rt, st₂, g₂, hrun, hfind⟩ := ihr.nextApply hr hplainr hreach₁ hΓ hΔ hright
      have hreach₂ := hfind.reaches hreach₁
      rw [← hlT, ← hfind.assign_apply hreach₁ hwithin, ← hfind.assign_type] at hmeet
      obtain ⟨u, hu, hsolved⟩ := operands_complete hord hmeet
      refine ⟨_, st₂, g₂, start_expr_binop.mpr ⟨kind, hkind, lt, st₁, hl, rt, st₂, hrun, u, hu,
        rfl, rfl⟩, hreach₂.agree, hsolved.comp hreach₂.solved, ?_⟩
      cases kind <;> rfl

theorem CompleteExpr.construct (hr : c.registry.WellFormed) {name : String} {args : List Expr}
    (ih : ∀ e ∈ args, CompleteExpr c e) : CompleteExpr c (.construct name args) := by
  intro W Γ Δ st f T hplain hΓ hΔ hT
  cases hplain with
  | construct hplain =>
      cases hT with
      | @construct _ _ info _ ts hinfo hlen hargs =>
          have hbound : info.Bounded := hr.field_vars name info hinfo
          have hfg := f.agree_extend st.next ts
          have hparams := map_freshTys_extend_params hlen f st.next
          have hreach : Reaches W st.next f (drawnTo st (st.next + info.paramCount)).next ∅ _ :=
            .start hΓ.below (le_add_count _ _) hfg
          have hcount : args.length = info.arity := by
            simpa [ConstructorInfo.fieldsAt, ConstructorInfo.arity] using length_of_haveTypes hargs
          rw [← hparams, ← ConstructorInfo.map_assign_instantiate hbound] at hargs
          obtain ⟨s, st', g, hrun, hagree, hsolved⟩ := exprArgs_complete hr hΓ hΔ ih hplain hreach
            (ConstructorInfo.within_fields hbound W st.next) hargs
          refine ⟨_, st', g, start_expr_construct.mpr ⟨info, hinfo, hcount, s, st', hrun, rfl, rfl⟩,
            hfg.trans (le_add_count _ _) hagree, hsolved, ?_⟩
          rw [hsolved.assign_apply, hreach.assign_eq hagree (info.within_result W st.next),
            info.assign_result, hparams]

theorem CompleteExpr.tuple (hr : c.registry.WellFormed) {elems : List Expr}
    (ih : ∀ e ∈ elems, CompleteExpr c e) : CompleteExpr c (.tuple elems) := by
  intro W Γ Δ st f T hplain hΓ hΔ hT
  cases hplain with
  | tuple hplain =>
      cases hT with
      | tuple helems =>
          obtain ⟨s, ts, st', g, hrun, hagree, hsolved, rfl⟩ := exprList_complete hr hΓ hΔ ih hplain
            (.start hΓ.below (Int.le_refl _) (.refl _ f)) helems
          refine ⟨_, st', g, start_expr_tuple.mpr ⟨s, ts, st', hrun, rfl, rfl⟩, hagree, hsolved, ?_⟩
          rw [Ty.assign_tuple, Subst.SolvedBy.map_assign hsolved]

theorem CompleteExpr.proj {tuple : Expr} {index : Nat} : CompleteExpr c (.proj tuple index) := by
  intro W Γ Δ st f T hplain
  cases hplain

theorem CompleteExpr.record (hr : c.registry.WellFormed) {fields : List (String × Expr)}
    (ih : ∀ f ∈ fields, CompleteExpr c f.2) : CompleteExpr c (.record fields) := by
  intro W Γ Δ st f T hplain hΓ hΔ hT
  cases hplain with
  | record hplain =>
      cases hT with
      | record hfields =>
          obtain ⟨s, ts, st', g, hrun, hagree, hsolved, rfl⟩ := exprList_complete hr hΓ hΔ
            (List.forall_mem_map.mpr ih) (List.forall_mem_map.mpr hplain)
            (.start hΓ.below (Int.le_refl _) (.refl _ f)) hfields
          refine ⟨_, st', g, start_expr_record.mpr ⟨s, ts, st', hrun, rfl, rfl⟩, hagree, hsolved,
            ?_⟩
          rw [Ty.assign_record_zip, Subst.SolvedBy.map_assign hsolved]

theorem CompleteExpr.access {record : Expr} {label : String} :
    CompleteExpr c (.access record label) := by
  intro W Γ Δ st f T hplain
  cases hplain

theorem CompleteExpr.range (hr : c.registry.WellFormed) {first last : Expr}
    (ihf : CompleteExpr c first) (ihl : CompleteExpr c last) :
    CompleteExpr c (.range first last) := by
  intro W Γ Δ st f T hplain hΓ hΔ hT
  cases hplain with
  | range hplainf hplainl =>
      cases hT with
      | range hfirst hlast =>
          obtain ⟨ft, st₁, g₁, hf, hreach₁, hwithin, hfT⟩ := ihf.first hr hplainf hΓ hΔ hfirst
          obtain ⟨u₁, hu₁, -, -, hreach₂⟩ := hreach₁.unify hwithin (Ty.within_prim _ .int) hfT
          obtain ⟨lt, st₂, g₂, hl, hfind⟩ := ihl.nextApply hr hplainl hreach₂ hΓ hΔ hlast
          have hreach₃ := hfind.reaches hreach₂
          obtain ⟨u₂, hu₂, -, -, hreach₄⟩ := hreach₃.unify hfind.within (Ty.within_prim _ .int)
            hfind.assign_type
          exact ⟨_, st₂, g₂, start_expr_range.mpr ⟨ft, st₁, hf, u₁, hu₁, lt, st₂, hl, u₂, hu₂, rfl,
            rfl⟩, hreach₄.agree, hreach₄.solved, rfl⟩

theorem CompleteExpr.matchOn (hr : c.registry.WellFormed)
    {scrutinee : Expr} {arms : List (Pattern × Expr)} (ihs : CompleteExpr c scrutinee)
    (ih : ∀ arm ∈ arms, CompleteExpr c arm.2) : CompleteExpr c (.matchOn scrutinee arms) := by
  intro W Γ Δ st f T hplain hΓ hΔ hT
  cases hplain with
  | matchOn hplains hpats hplain =>
      cases hT with
      | matchOn hscrutinee harms =>
          obtain ⟨vt, st₁, g₁, hv, hreach₁, hwithin, hvT⟩ := ihs.first hr hplains hΓ hΔ hscrutinee
          have hnext := Int.le_of_lt (lt_succ st₁.next)
          -- the new variable becomes the type that all arms have
          have hagree₁ := g₁.agree_extend st₁.next [T]
          have hvar := g₁.extend_singleton st₁.next T
          have hreach₂ : Reaches W st.next f (drawnTo st₁ (st₁.next + 1)).next vt.subst _ :=
            hreach₁.draw hnext hagree₁
          have hresult :
              (Ty.var st₁.next).Within (grow W st.next (drawnTo st₁ (st₁.next + 1)).next) :=
            Ty.within_var.mpr (Or.inr ⟨hreach₁.threaded.le, lt_succ _⟩)
          have hvW := hwithin.mono (live_subset _ _)
          obtain ⟨s, st₂, g₂, hrun, hagree₂, hsolved⟩ := exprArms_complete hr hΓ hΔ ih hpats hplain
            hreach₂ (hvW.mono (grow_mono_next W st.next hnext)) hresult
            ((hreach₁.assign_eq hagree₁ hvW).trans hvT) hvar harms
          obtain ⟨st₃, hcov⟩ := coverage_complete hr (allTyped_of_arms harms) st₂
          refine ⟨_, st₃, g₂, start_expr_matchOn.mpr ⟨vt, st₁, hv, s, st₂, hrun, (), st₃, hcov, rfl,
            rfl⟩, hreach₂.agree.trans (Int.le_trans hreach₁.threaded.le hnext) hagree₂, hsolved, ?_⟩
          rw [hsolved st₁.next]
          exact (hagree₂ st₁.next (lt_succ _)).trans hvar

theorem expr_complete (hr : c.registry.WellFormed) (e : Expr) : CompleteExpr c e := by
  induction e with
  | lit l => exact .lit l
  | var x => exact .var x
  | lam x ascription body ih => exact .lam hr ih
  | app fn arg ihf iha => exact .app hr ihf iha
  | letIn x ascription value body ihv ihb => exact .letIn hr ihv ihb
  | letRec x ascription value body ihv ihb => exact .letRec hr ihv ihb
  | ite cond thenBranch elseBranch ihc iht ihe => exact .ite hr ihc iht ihe
  | binop op left right ihl ihr => exact .binop hr ihl ihr
  | construct name args ih => exact .construct hr ih
  | tuple elems ih => exact .tuple hr ih
  | proj tuple index ih => exact .proj
  | record fields ih => exact .record hr ih
  | access record label ih => exact .access
  | range first last ihf ihl => exact .range hr ihf ihl
  | matchOn scrutinee arms ihs ih => exact .matchOn hr ihs ih

end Infer

/-! ## Programs -/

/-- With nothing in scope every variable of a type is quantified. -/
theorem instance_generalize_empty (t : Ty) (g : Assignment) :
    (Env.generalize ∅ t).Instance (t.assign g) := by
  refine Scheme.instance_iff.mpr ⟨g, Ty.assign_congr fun v hv => ?_⟩
  have hq : v ∈ (Env.generalize ∅ t).quantified := by
    refine Env.mem_quantified_generalize.mpr ⟨hv, fun hfree => ?_⟩
    exact absurd (Env.freeIn_empty ∅ v (Env.free_iff.mpr hfree)) id
  rw [Scheme.choose, if_pos hq]

/-- **Principal types.** When the declarations are in order and the body is plain, a body that has a
type at all passes, and each of its types is an instance of the scheme that is found; a body that is
rejected has no type. -/
theorem typecheck_principal {p : Program} {r : Registry} (hbuild : Registry.build p.decls = .ok r)
    (hplain : p.body.Plain) (options : Options) :
    (∀ T, HasType r ∅ p.body T →
      ∃ checked, typecheck p options = .ok checked ∧ checked.scheme.Instance T) ∧
    ∀ e, typecheck p options = .error e → ∀ T, ¬ HasType r ∅ p.body T := by
  have hpass : ∀ T, HasType r ∅ p.body T →
      ∃ checked, typecheck p options = .ok checked ∧ checked.scheme.Instance T := by
    intro T hT
    have hr := Registry.build_wellFormed hbuild
    obtain ⟨ty, st, g, hrun, -, hsolved, hty⟩ := Infer.expr_complete
      (c := { registry := r, checkCoverage := options.checkCoverage }) hr p.body hplain
      (.empty below_start) (.empty Ty.var) hT
    refine ⟨_, typecheck_ok.mpr ⟨r, hbuild, ty, st, hrun, rfl⟩, ?_⟩
    rw [← hty, ← hsolved.assign_apply]
    exact instance_generalize_empty (ty.subst.apply ty.type) g
  refine ⟨hpass, fun e he T hT => ?_⟩
  obtain ⟨checked, hchecked, -⟩ := hpass T hT
  rw [he] at hchecked
  cases hchecked

/-- Wraps its argument, after the same function has wrapped a number. -/
def wrapping : Program where
  decls := optionDecls
  body :=
    .lam "z" none
      (.letIn "wrap" none (.lam "x" none (.construct "Some" [.var "x"]))
        (.matchOn (.app (.var "wrap") (.lit (.int 1)))
          [(.con "Some" [.var "n"], .app (.var "wrap") (.var "z"))]))

theorem wrapping_plain : wrapping.body.Plain := by
  refine .lam (.letIn (.lam (.construct ?_)) (.matchOn (.app (.var _) (.lit _)) ?_ ?_))
  · exact List.forall_mem_singleton.mpr (.var _)
  · exact List.forall_mem_singleton.mpr (.con (List.forall_mem_singleton.mpr (.var _)))
  · exact List.forall_mem_singleton.mpr (.app (.var _) (.var _))

/-- The type of `wrap` at the type of its argument. -/
def wrapType (a : Ty) : Ty := .fn a (.sum "Option" [a])

theorem instance_mono (t : Ty) : (Scheme.mono t).Instance t :=
  Scheme.instance_iff.mpr (Scheme.instanceUnder_mono_iff.mpr (Ty.assign_var_self t).symm)

theorem wrapping_hasType {r : Registry} (hsome : r.constructors["Some"]? = some someInfo) :
    HasType r ∅ wrapping.body (wrapType .char) := by
  have hhere : ∀ (Γ : Env) (x : String) (σ : Scheme), (Γ.insert x σ)[x]? = some σ :=
    fun Γ x σ => Env.getElem?_insert_iff.mpr (Or.inl ⟨rfl, rfl⟩)
  have hskip : ∀ (Γ : Env) (x y : String) (σ τ : Scheme), x ≠ y → Γ[y]? = some τ →
      (Γ.insert x σ)[y]? = some τ :=
    fun Γ x y σ τ hne hy => Env.getElem?_insert_iff.mpr (Or.inr ⟨hne, hy⟩)
  have hinst : ∀ a,
      ((Env.bindTy ∅ "z" .char).generalize (wrapType (.var 0))).Instance (wrapType a) := by
    intro a
    refine Scheme.instance_iff.mpr ⟨fun _ => a, ?_⟩
    cbv
  have hgen := Infer.generalizes_generalize (Env.bindTy ∅ "z" .char) (wrapType (.var 0))
  refine .lam trivial (.letIn ?_ trivial hgen (.matchOn (a := .sum "Option" [.int]) ?_ ?_))
  · exact .lam trivial (.construct hsome rfl (.cons (.var (hhere _ "x" _) (instance_mono _)) .nil))
  · exact .app (.var (hhere _ "wrap" _) (hinst .int)) (.int 1)
  · have hpattern : PatternType r (.con "Some" [.var "n"]) (.sum "Option" [.int]) [("n", .int)] :=
      .con hsome rfl (.cons (.var "n" .int) .nil)
    refine .cons hpattern (.app (.var ?_ (hinst .char)) (.var ?_ (instance_mono .char))) .nil
    · exact hskip _ "n" "wrap" _ _ (by decide) (hhere _ _ _)
    · exact hskip _ "n" "z" _ _ (by decide) (hskip _ "wrap" "z" _ _ (by decide) (hhere _ _ _))

theorem typecheck_principal_wrapping :
    ∃ (r : Registry) (checked : Checked), Registry.build wrapping.decls = .ok r ∧
      HasType r ∅ wrapping.body (wrapType .char) ∧ typecheck wrapping = .ok checked ∧
      checked.scheme.Instance (wrapType .char) := by
  obtain ⟨r, hr, hsome⟩ := build_optionDecls
  have htype := wrapping_hasType hsome
  obtain ⟨checked, hchecked, hinst⟩ := (typecheck_principal hr wrapping_plain {}).1 _ htype
  exact ⟨r, checked, hr, htype, hchecked, hinst⟩

end Polytype
