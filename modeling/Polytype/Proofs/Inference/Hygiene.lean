/-
# Polytype.Proofs.Inference.Hygiene — inference mentions only what is in use.

A run that starts with the variables `W` in use gives a threaded substitution over `W` and the variables
that it draws, and a type that mentions none of the variables that are bound by then
(`pattern_tidy`, `expr_tidy`).  So every substitution on the way is idempotent, the steps of a run never
bind a variable twice, and what one step has found out holds for good.
-/
import Polytype.Proofs.Inference.Drawing

namespace Polytype

variable {r : Registry} {c : InferContext} {W : Set TyVar} {n : TyVar}

/-- What the typing of a pattern mentions is in use. -/
structure PatternTyping.Tidy (W : Set TyVar) (n n' : TyVar) (pt : PatternTyping) : Prop where
  threaded : pt.subst.Threaded W n n'
  within : ∀ b ∈ pt.bindings, b.2.Within (grow W n n')

/-- What the typing of an expression mentions is in use, and its type is up to date. -/
structure Typing.Tidy (W : Set TyVar) (n n' : TyVar) (ty : Typing) : Prop where
  threaded : ty.subst.Threaded W n n'
  within : ty.type.Within (scopeAfter W n n' ty.subst)

/-- A first unification, over variables some of which are new. -/
theorem Subst.Threaded.of_unify {n' : TyVar} {a b : Ty} {u : Subst} (hW : Below W n) (hn : n ≤ n')
    (ha : a.Within (grow W n n')) (hb : b.Within (grow W n n')) (h : Polytype.unify a b = .ok u) :
    u.Threaded W n n' :=
  ⟨hW, hn, unify_settled h ha hb⟩

namespace Infer

/-! ## Patterns -/

/-- Typing the pattern leaves things tidy. -/
def KeepsTidy (r : Registry) (p : Pattern) : Prop :=
  ∀ ⦃W : Set TyVar⦄ ⦃t : Ty⦄ ⦃st st' : InferState⦄ ⦃pt : PatternTyping⦄, Below W st.next →
    t.Within W → (pattern r p t).start st = (.ok pt, st') → pt.Tidy W st.next st'.next

theorem le_add_count (n : TyVar) (k : Nat) : n ≤ n + k := by lia

theorem patternList_tidy {ps : List Pattern} (ih : ∀ p ∈ ps, KeepsTidy r p) :
    ∀ {ts : List Ty} {s : Subst} {st st' : InferState} {pt : PatternTyping},
      s.Threaded W n st.next → (∀ t ∈ ts, t.Within (grow W n st.next)) → ps.length = ts.length →
      (patternList r ps ts s).start st = (.ok pt, st') →
      s.Continues W n st.next st'.next pt.subst ∧ ∀ b ∈ pt.bindings, b.2.Within (grow W n st'.next) := by
  induction ps with
  | nil =>
      intro ts s st st' pt hs _ _ h
      obtain ⟨rfl, rfl⟩ := start_patternList_nil.mp h
      exact ⟨.refl hs, by simp⟩
  | cons p ps ihps =>
      intro ts s st st' pt hs hts hlen h
      cases ts with
      | nil => cases hlen
      | cons t ts =>
          obtain ⟨here, st₁, rest, st₂, hp, hps, rfl, rfl⟩ := start_patternList_cons.mp h
          obtain ⟨ht, hts⟩ := List.forall_mem_cons.mp hts
          -- the first pattern sees the open variables only; the others go on from what it leaves
          have hhere : here.Tidy (scopeAfter W n st.next s) st.next st₁.next :=
            ih p List.mem_cons_self hs.below_scopeAfter (hs.apply_within ht) hp
          have hstep := Subst.Continues.comp hs hhere.threaded
          obtain ⟨hrest, hbs⟩ := ihps (fun q hq => ih q (List.mem_cons_of_mem p hq)) hstep.threaded
            (fun u hu => (hts u hu).mono (grow_mono_next W n hstep.le)) (Nat.succ.inj hlen) hps
          refine ⟨hstep.trans hrest, fun b hb => ?_⟩
          rcases List.mem_append.mp hb with hb | hb
          · refine (hhere.within b hb).mono ?_
            rw [← hs.scopeAfter_draw hstep.le]
            exact (live_subset _ _).trans (grow_mono_next W n hrest.le)
          · exact hbs b hb

theorem patternList_tidy_of_threaded {ps : List Pattern} (ih : ∀ p ∈ ps, KeepsTidy r p) {ts : List Ty}
    {s : Subst} {st st' : InferState} {pt : PatternTyping} (hs : s.Threaded W n st.next)
    (hts : ∀ t ∈ ts, t.Within (grow W n st.next)) (hlen : ps.length = ts.length)
    (h : (patternList r ps ts s).start st = (.ok pt, st')) : pt.Tidy W n st'.next :=
  ⟨(patternList_tidy ih hs hts hlen h).1.threaded, (patternList_tidy ih hs hts hlen h).2⟩

theorem length_instantiate (info : ConstructorInfo) (n : TyVar) :
    (info.instantiate n).fields.length = info.arity := by
  simp [ConstructorInfo.instantiate, ConstructorInfo.arity]

theorem length_freshTys (n : TyVar) (k : Nat) : (freshTys n k).length = k := by
  simp [freshTys]

/-- There is a type for each of the fields that a record pattern names. -/
theorem recordFields_length {t : Ty} {fields : List (String × Pattern)} {s : Subst} {ts : List Ty}
    {st st' : InferState} (h : (recordFields t (fields.map Prod.fst)).start st = (.ok (s, ts), st')) :
    (fields.map Prod.snd).length = ts.length := by
  rw [List.length_map]
  rcases start_recordFields h with ⟨known, -, hts, -, -⟩ | ⟨rfl, -, -⟩
  · rw [(fieldTypes_spec hts).1, List.length_map]
  · rw [length_freshTys, List.length_map]

/-- The types of the fields that a record pattern names are in use. -/
theorem recordFields_tidy {t : Ty} {labels : List String} {s : Subst} {ts : List Ty}
    {st st' : InferState} (hW : Below W st.next) (ht : t.Within W)
    (h : (recordFields t labels).start st = (.ok (s, ts), st')) :
    s.Threaded W st.next st'.next ∧ ∀ t ∈ ts, t.Within (grow W st.next st'.next) := by
  rcases start_recordFields h with ⟨known, rfl, hts, rfl, rfl⟩ | ⟨rfl, hu, rfl⟩
  · obtain ⟨hlen, hmem⟩ := fieldTypes_spec hts
    refine ⟨.empty hW (Int.le_refl _), fun u hu => ?_⟩
    -- every type of the list stands at some label
    obtain ⟨i, hi, rfl⟩ := List.getElem_of_mem hu
    have hg : (labels[i], ts[i]) ∈ known :=
      hmem _ (List.mem_iff_getElem.mpr ⟨i, by simp; omega, by simp⟩)
    exact (Ty.within_record.mp ht _ hg).mono (subset_grow _ _ _)
  · have hfresh := within_freshTys W st.next labels.length
    refine ⟨.of_unify hW (le_add_count _ _) (ht.mono (subset_grow _ _ _)) ?_ hu, hfresh⟩
    exact Ty.within_record.mpr fun g hg => hfresh g.2 (List.of_mem_zip hg).2

theorem KeepsTidy.wildcard : KeepsTidy r .wildcard := by
  intro W t st st' pt hW _ h
  obtain ⟨rfl, rfl⟩ := start_pure_ok.mp h
  exact ⟨.empty hW (Int.le_refl _), by simp⟩

theorem KeepsTidy.var (x : String) : KeepsTidy r (.var x) := by
  intro W t st st' pt hW ht h
  obtain ⟨rfl, rfl⟩ := start_pure_ok.mp h
  refine ⟨.empty hW (Int.le_refl _), ?_⟩
  simpa using ht

theorem KeepsTidy.int (k : Int) : KeepsTidy r (.int k) := by
  intro W t st st' pt hW ht h
  obtain ⟨u, hu, rfl, rfl⟩ := start_pattern_int.mp h
  refine ⟨.of_unify hW (Int.le_refl _) ?_ (Ty.within_prim _ _) hu, by simp⟩
  exact ht.mono (subset_grow _ _ _)

theorem KeepsTidy.bool (b : Bool) : KeepsTidy r (.bool b) := by
  intro W t st st' pt hW ht h
  obtain ⟨u, hu, rfl, rfl⟩ := start_pattern_bool.mp h
  refine ⟨.of_unify hW (Int.le_refl _) ?_ (Ty.within_prim _ _) hu, by simp⟩
  exact ht.mono (subset_grow _ _ _)

theorem KeepsTidy.con (hr : r.WellFormed) {name : String} {args : List Pattern}
    (ih : ∀ p ∈ args, KeepsTidy r p) : KeepsTidy r (.con name args) := by
  intro W t st st' pt hW ht h
  obtain ⟨info, hinfo, hlen, u, hu, h⟩ := start_pattern_con.mp h
  have hbound : info.Bounded := hr.field_vars name info hinfo
  have hs : u.Threaded W st.next (drawnTo st (st.next + info.paramCount)).next :=
    .of_unify hW (le_add_count _ _) (ht.mono (subset_grow _ _ _)) (info.within_result W st.next) hu
  refine patternList_tidy_of_threaded ih hs ?_ ?_ h
  · exact ConstructorInfo.within_fields hbound W st.next
  · rw [hlen, length_instantiate]

theorem KeepsTidy.tuple {elems : List Pattern} (ih : ∀ p ∈ elems, KeepsTidy r p) :
    KeepsTidy r (.tuple elems) := by
  intro W t st st' pt hW ht h
  obtain ⟨u, hu, h⟩ := start_pattern_tuple.mp h
  have hfresh := within_freshTys W st.next elems.length
  have hs : u.Threaded W st.next (drawnTo st (st.next + elems.length)).next :=
    .of_unify hW (le_add_count _ _) (ht.mono (subset_grow _ _ _)) (Ty.within_tuple.mpr hfresh) hu
  exact patternList_tidy_of_threaded ih hs hfresh (length_freshTys _ _).symm h

theorem KeepsTidy.record {fields : List (String × Pattern)} (ih : ∀ f ∈ fields, KeepsTidy r f.2) :
    KeepsTidy r (.record fields) := by
  intro W t st st' pt hW ht h
  obtain ⟨s, ts, st₁, hfields, h⟩ := start_pattern_record.mp h
  obtain ⟨hs, hts⟩ := recordFields_tidy hW ht hfields
  exact patternList_tidy_of_threaded (List.forall_mem_map.mpr ih) hs hts (recordFields_length hfields) h

theorem pattern_tidy (hr : r.WellFormed) (p : Pattern) : KeepsTidy r p := by
  induction p with
  | wildcard => exact .wildcard
  | var x => exact .var x
  | int k => exact .int k
  | bool b => exact .bool b
  | con name args ih => exact .con hr ih
  | tuple elems ih => exact .tuple ih
  | record fields ih => exact .record ih

/-! ## Steps of expressions -/

/-- Typing the expression leaves things tidy. -/
def TypesTidily (c : InferContext) (e : Expr) : Prop :=
  ∀ ⦃W : Set TyVar⦄ ⦃Γ : Env⦄ ⦃st st' : InferState⦄ ⦃ty : Typing⦄, Below W st.next → Γ.FreeIn W →
    (expr c Γ e).start st = (.ok ty, st') → ty.Tidy W st.next st'.next

/-- A run that follows another one. -/
theorem TypesTidily.next {e : Expr} (he : TypesTidily c e) {Γ : Env} {s : Subst} {st st' : InferState}
    {ty : Typing} (hs : s.Threaded W n st.next) (hΓ : Γ.FreeIn (scopeAfter W n st.next s))
    (h : (expr c Γ e).start st = (.ok ty, st')) :
    ty.subst.Threaded (scopeAfter W n st.next s) st.next st'.next ∧
      ty.type.Within (scopeAfter W n st'.next (ty.subst.comp s)) := by
  have htidy := he hs.below_scopeAfter hΓ h
  refine ⟨htidy.threaded, ?_⟩
  rw [← hs.scopeAfter_comp htidy.threaded]
  exact htidy.within

/-- New variables are open. -/
theorem within_scopeAfter_of_new {s : Subst} {t : Ty} {n₁ n₂ : TyVar} (hs : s.Threaded W n n₁)
    (ht : t.Within (grow ∅ n₁ n₂)) : t.Within (scopeAfter W n n₂ s) := by
  intro v hv
  obtain ⟨h₁, h₂⟩ := (ht v hv).resolve_left id
  exact hs.mem_scopeAfter_draw h₁ h₂

theorem ascribe_tidy (hr : r.WellFormed) {ascription : Option TypeExpr} {vt ty : Typing}
    {st st' : InferState} (hv : vt.Tidy W n st.next)
    (h : (ascribe r ascription vt).start st = (.ok ty, st')) :
    ty.Tidy W n st'.next ∧ vt.subst.Continues W n st.next st'.next ty.subst := by
  cases ascription with
  | none =>
      obtain ⟨rfl, rfl⟩ := start_pure_ok.mp h
      exact ⟨hv, .refl hv.threaded⟩
  | some e =>
      obtain ⟨t, st₁, ht, u, hu, rfl, rfl⟩ := start_ascribe_some.mp h
      have ht : (ascribedOrFresh r (some e)).start st = (.ok t, st₁) := ht
      obtain ⟨hle, hnew, -⟩ := ascribedOrFresh_sound hr ht
      have hs := hv.threaded.draw hle
      have hvt := hv.within.mono (hv.threaded.scopeAfter_subset_draw hle)
      have hthr := hs.unify hvt (within_scopeAfter_of_new hv.threaded hnew) hu
      refine ⟨⟨hs.comp hthr, hs.within_comp hthr hvt⟩, ?_⟩
      exact ⟨hle, hs.comp hthr, fun f hf => ((hs.solvedBy_comp hthr).mp hf).1⟩

theorem operands_settled {kind : OperatorKind} {a b : Ty} {u : Subst} (ha : a.Within W)
    (hb : b.Within W) (h : operands kind a b = .ok u) : u.Settled W := by
  cases kind with
  | arithmetic =>
      simp only [operands, bind_eq_ok_iff, pure_eq_ok_iff] at h
      obtain ⟨s₁, h₁, s₂, h₂, rfl⟩ := h
      have hs₁ := unify_settled h₁ ha (Ty.within_prim W _)
      exact hs₁.comp (unify_settled h₂ (hs₁.apply_within hb) (Ty.within_prim _ _))
  | equality => exact unify_settled h ha hb
  | ordering =>
      simp only [operands, bind_eq_ok_iff] at h
      obtain ⟨s, hs, h⟩ := h
      have hset := unify_settled hs ha hb
      split at h
      · next v hv =>
          simp only [bind_eq_ok_iff, pure_eq_ok_iff] at h
          obtain ⟨s₁, h₁, rfl⟩ := h
          have hwithin : (Ty.var v).Within (live W s) := hv ▸ hset.apply_within ha
          exact hset.comp (unify_settled h₁ hwithin (Ty.within_prim _ _))
      · cases h
        exact hset
      · cases h
        exact hset
      · exact absurd h raise_ne_ok

/-! ## Lists of expressions -/

theorem exprArgs_tidy {es : List Expr} (ih : ∀ e ∈ es, TypesTidily c e) {Γ : Env} (hΓ : Γ.FreeIn W) :
    ∀ {ts : List Ty} {s s' : Subst} {st st' : InferState}, s.Threaded W n st.next →
      (∀ t ∈ ts, t.Within (grow W n st.next)) → es.length = ts.length →
      (exprArgs c Γ es ts s).start st = (.ok s', st') →
      s.Continues W n st.next st'.next s' := by
  induction es with
  | nil =>
      intro ts s s' st st' hs _ _ h
      obtain ⟨rfl, rfl⟩ := start_exprArgs_nil.mp h
      exact .refl hs
  | cons e es ihes =>
      intro ts s s' st st' hs hts hlen h
      cases ts with
      | nil => cases hlen
      | cons t ts =>
          obtain ⟨xt, st₁, hx, u, hu, h⟩ := start_exprArgs_cons.mp h
          obtain ⟨ht, hts⟩ := List.forall_mem_cons.mp hts
          obtain ⟨hxthr, hxwithin⟩ :=
            (ih e List.mem_cons_self).next hs (hΓ.apply_threaded hs) hx
          have hs₁ := Subst.Continues.comp hs hxthr
          have hthr := hs₁.threaded.unify
            (hs₁.threaded.apply_within (ht.mono (grow_mono_next W n hs₁.le))) hxwithin hu
          have hs₂ := Subst.Continues.comp hs₁.threaded hthr
          refine (hs₁.trans hs₂).trans (ihes (fun q hq => ih q (List.mem_cons_of_mem e hq))
            hs₂.threaded ?_ (Nat.succ.inj hlen) h)
          exact fun v hv => (hts v hv).mono (grow_mono_next W n hs₁.le)

theorem exprList_tidy {es : List Expr} (ih : ∀ e ∈ es, TypesTidily c e) {Γ : Env} (hΓ : Γ.FreeIn W) :
    ∀ {s s' : Subst} {ts : List Ty} {st st' : InferState}, s.Threaded W n st.next →
      (exprList c Γ es s).start st = (.ok (s', ts), st') →
      s.Continues W n st.next st'.next s' ∧ ∀ t ∈ ts, t.Within (grow W n st'.next) := by
  induction es with
  | nil =>
      intro s s' ts st st' hs h
      obtain ⟨hres, rfl⟩ := start_exprList_nil.mp h
      cases hres
      exact ⟨.refl hs, by simp⟩
  | cons e es ihes =>
      intro s s' ts st st' hs h
      obtain ⟨xt, st₁, hx, s₁, us, st₂, hus, hres, rfl⟩ := start_exprList_cons.mp h
      cases hres
      obtain ⟨hxthr, hxwithin⟩ :=
        (ih e List.mem_cons_self).next hs (hΓ.apply_threaded hs) hx
      have hs₁ := Subst.Continues.comp hs hxthr
      obtain ⟨hs₂, hwithin⟩ := ihes (fun q hq => ih q (List.mem_cons_of_mem e hq)) hs₁.threaded hus
      refine ⟨hs₁.trans hs₂, List.forall_mem_cons.mpr ⟨?_, hwithin⟩⟩
      exact hxwithin.mono ((live_subset _ _).trans (grow_mono_next W n hs₂.le))

/-- The variables of a pattern, as they are known in the body of its arm. -/
theorem within_bindings {s : Subst} {pt : PatternTyping} {n₁ n₂ : TyVar} (hs : s.Threaded W n n₁)
    (hp : pt.Tidy (scopeAfter W n n₁ s) n₁ n₂) :
    ∀ b ∈ pt.bindings.map fun b => (b.1, (pt.subst.comp s).apply b.2),
      b.2.Within (scopeAfter W n n₂ (pt.subst.comp s)) := by
  intro b hb
  obtain ⟨b₀, hb₀, rfl⟩ := List.mem_map.mp hb
  refine (hs.comp hp.threaded).apply_within ((hp.within b₀ hb₀).mono ?_)
  rw [← hs.scopeAfter_draw hp.threaded.le]
  exact live_subset _ _

theorem exprArms_tidy (hr : c.registry.WellFormed) {arms : List (Pattern × Expr)}
    (ih : ∀ arm ∈ arms, TypesTidily c arm.2) {Γ : Env} (hΓ : Γ.FreeIn W) {a b : Ty} :
    ∀ {s s' : Subst} {st st' : InferState}, s.Threaded W n st.next →
      a.Within (grow W n st.next) → b.Within (grow W n st.next) →
      (exprArms c Γ a b arms s).start st = (.ok s', st') →
      s.Continues W n st.next st'.next s' := by
  induction arms with
  | nil =>
      intro s s' st st' hs _ _ h
      obtain ⟨rfl, rfl⟩ := start_exprArms_nil.mp h
      exact .refl hs
  | cons arm arms iharms =>
      intro s s' st st' hs ha hb h
      obtain ⟨p, e⟩ := arm
      obtain ⟨pt, st₁, hp, bt, st₂, hbody, u, hu, h⟩ := start_exprArms_cons.mp h
      have hptidy := pattern_tidy hr p hs.below_scopeAfter (hs.apply_within ha) hp
      have hs₁ := Subst.Continues.comp hs hptidy.threaded
      have hΓ₁ := (hΓ.apply_threaded hs₁.threaded).bindAll (within_bindings hs hptidy)
      obtain ⟨hbthr, hbwithin⟩ := (ih (p, e) List.mem_cons_self).next hs₁.threaded hΓ₁ hbody
      have hs₂ := hs₁.trans (.comp hs₁.threaded hbthr)
      have hb₂ := hb.mono (grow_mono_next W n hs₂.le)
      have hthr := hs₂.threaded.unify (hs₂.threaded.apply_within hb₂) hbwithin hu
      have hs₃ := hs₂.trans (.comp hs₂.threaded hthr)
      exact hs₃.trans (iharms (fun q hq => ih q (List.mem_cons_of_mem _ hq)) hs₃.threaded
        (ha.mono (grow_mono_next W n hs₃.le)) hb₂ h)

/-! ## Expressions -/

theorem TypesTidily.lit (l : Literal) : TypesTidily c (.lit l) := by
  intro W Γ st st' ty hW _ h
  obtain ⟨rfl, rfl⟩ := start_pure_ok.mp h
  refine ⟨.empty hW (Int.le_refl _), ?_⟩
  cases l <;> exact Ty.within_prim _ _

theorem TypesTidily.var (x : String) : TypesTidily c (.var x) := by
  intro W Γ st st' ty hW hΓ h
  obtain ⟨σ, hσ, rfl, rfl⟩ := start_expr_var.mp h
  refine ⟨.empty hW (le_add_count _ _), ?_⟩
  have hfree : ∀ v ∈ σ.body.vars, v ∉ σ.quantified → v ∈ W :=
    fun v hv hq => hΓ v ⟨x, σ, hσ, hv, hq⟩
  intro v hv
  exact ⟨Scheme.within_instantiate hfree v hv, Std.ExtTreeMap.not_mem_empty⟩

theorem TypesTidily.lam (hr : c.registry.WellFormed)
    {x : String} {ascription : Option TypeExpr} {body : Expr} (ih : TypesTidily c body) :
    TypesTidily c (.lam x ascription body) := by
  intro W Γ st st' ty hW hΓ h
  obtain ⟨dom, st₁, hdom, bt, st₂, hbody, rfl, rfl⟩ := start_expr_lam.mp h
  obtain ⟨hle, hnew, -⟩ := ascribedOrFresh_sound hr hdom
  have hdomW : dom.Within (grow W st.next st₁.next) := hnew.mono (grow_subset (Set.empty_subset W) _ _)
  have hΓ₁ := (hΓ.mono (subset_grow W st.next st₁.next)).bindTy hdomW x
  have hbt := ih (hW.grow hle) hΓ₁ hbody
  -- the run of the body is counted from before the parameter got its variables
  have hscope := Subst.Threaded.scopeAfter_grow hle hbt.threaded
  refine ⟨.of_grow hW hle hbt.threaded, ?_⟩
  rw [← hscope]
  refine Ty.within_fn.mpr ⟨?_, hbt.within⟩
  exact hbt.threaded.apply_within (hdomW.mono (subset_grow _ _ _))

theorem TypesTidily.app {fn arg : Expr} (ihf : TypesTidily c fn) (iha : TypesTidily c arg) :
    TypesTidily c (.app fn arg) := by
  intro W Γ st st' ty hW hΓ h
  obtain ⟨ft, st₁, hf, xt, st₂, hx, u, hu, rfl, rfl⟩ := start_expr_app.mp h
  have hft := ihf hW hΓ hf
  have hs := hft.threaded
  obtain ⟨hxthr, hxwithin⟩ := iha.next hs (hΓ.apply_threaded hs) hx
  have hs₁ := hs.comp hxthr
  have hnext := Int.le_of_lt (lt_succ st₂.next)
  have hgrow := hs₁.scopeAfter_subset_draw hnext
  -- the variable of the result is drawn after both runs, so neither of them binds it
  have hresult : (Ty.var st₂.next).Within (scopeAfter W st.next (st₂.next + 1) _) :=
    Ty.within_var.mpr (hs₁.mem_scopeAfter_draw (Int.le_refl _) (lt_succ _))
  have hthr := (hs₁.draw hnext).unify ((hs.within_comp hxthr hft.within).mono hgrow)
    (Ty.within_fn.mpr ⟨hxwithin.mono hgrow, hresult⟩) hu
  exact ⟨(hs₁.draw hnext).comp hthr, (hs₁.draw hnext).within_comp hthr hresult⟩

theorem TypesTidily.letIn (hr : c.registry.WellFormed)
    {x : String} {ascription : Option TypeExpr} {value body : Expr} (ihv : TypesTidily c value)
    (ihb : TypesTidily c body) : TypesTidily c (.letIn x ascription value body) := by
  intro W Γ st st' ty hW hΓ h
  obtain ⟨vt, st₁, hv, xt, st₂, hx, bt, st₃, hb, rfl, rfl⟩ := start_expr_letIn.mp h
  have hxt := (ascribe_tidy hr (ihv hW hΓ hv) hx).1
  -- generalizing frees no variable, so the body still sees open variables only
  have hΓ₁ := (hΓ.apply_threaded hxt.threaded).generalize x xt.type
  obtain ⟨hbthr, hbwithin⟩ := ihb.next hxt.threaded hΓ₁ hb
  exact ⟨hxt.threaded.comp hbthr, hbwithin⟩

theorem TypesTidily.letRec (hr : c.registry.WellFormed)
    {x : String} {ascription : Option TypeExpr} {value body : Expr} (ihv : TypesTidily c value)
    (ihb : TypesTidily c body) : TypesTidily c (.letRec x ascription value body) := by
  intro W Γ st st' ty hW hΓ h
  obtain ⟨self, st₁, hself, vt, st₂, hv, u, hu, bt, st₃, hb, rfl, rfl⟩ := start_expr_letRec.mp h
  obtain ⟨hle, hnew, -⟩ := ascribedOrFresh_sound hr hself
  have hselfW : self.Within (grow W st.next st₁.next) := hnew.mono (grow_subset (Set.empty_subset W) _ _)
  have hΓ₁ := (hΓ.mono (subset_grow W st.next st₁.next)).bindTy hselfW x
  have hvt := ihv (hW.grow hle) hΓ₁ hv
  have hs : vt.subst.Threaded W st.next st₂.next := .of_grow hW hle hvt.threaded
  have hself₂ := hs.apply_within (hselfW.mono (grow_mono_next W _ hvt.threaded.le))
  have hvwithin := Subst.Threaded.scopeAfter_grow hle hvt.threaded ▸ hvt.within
  have hthr := hs.unify hself₂ hvwithin hu
  have hs₁ := hs.comp hthr
  have hΓ₂ := (hΓ.apply_threaded hs₁).generalize x (u.apply vt.type)
  obtain ⟨hbthr, hbwithin⟩ := ihb.next hs₁ hΓ₂ hb
  exact ⟨hs₁.comp hbthr, hbwithin⟩

theorem TypesTidily.ite {cond thenBranch elseBranch : Expr} (ihc : TypesTidily c cond)
    (iht : TypesTidily c thenBranch) (ihe : TypesTidily c elseBranch) :
    TypesTidily c (.ite cond thenBranch elseBranch) := by
  intro W Γ st st' ty hW hΓ h
  obtain ⟨ct, st₁, hc, u₁, hu₁, tt, st₂, ht, et, st₃, he, u₂, hu₂, rfl, rfl⟩ := start_expr_ite.mp h
  have hct := ihc hW hΓ hc
  have hthr₁ := hct.threaded.unify hct.within (Ty.within_prim _ _) hu₁
  have hs₁ := hct.threaded.comp hthr₁
  obtain ⟨htthr, htwithin⟩ := iht.next hs₁ (hΓ.apply_threaded hs₁) ht
  have hs₂ := hs₁.comp htthr
  obtain ⟨hethr, hewithin⟩ := ihe.next hs₂ (hΓ.apply_threaded hs₂) he
  have hs₃ := hs₂.comp hethr
  have hthr₂ := hs₃.unify (hs₂.within_comp hethr htwithin) hewithin hu₂
  exact ⟨hs₃.comp hthr₂, hs₃.within_comp hthr₂ hewithin⟩

theorem TypesTidily.binop {op : String} {left right : Expr} (ihl : TypesTidily c left)
    (ihr : TypesTidily c right) : TypesTidily c (.binop op left right) := by
  intro W Γ st st' ty hW hΓ h
  obtain ⟨kind, -, lt, st₁, hl, rt, st₂, hright, u, hu, rfl, rfl⟩ := start_expr_binop.mp h
  have hlt := ihl hW hΓ hl
  obtain ⟨hrthr, hrwithin⟩ := ihr.next hlt.threaded (hΓ.apply_threaded hlt.threaded) hright
  have hs₁ := hlt.threaded.comp hrthr
  have hset := operands_settled (hlt.threaded.within_comp hrthr hlt.within) hrwithin hu
  -- an operator unifies up to twice; together this is one step that draws nothing
  have hthr : u.Threaded (scopeAfter W st.next st₂.next (rt.subst.comp lt.subst)) st₂.next
      st₂.next := ⟨hs₁.below_scopeAfter, Int.le_refl _, by rwa [grow_self]⟩
  refine ⟨hs₁.comp hthr, ?_⟩
  cases kind <;> exact Ty.within_prim _ _

theorem TypesTidily.construct (hr : c.registry.WellFormed) {name : String} {args : List Expr}
    (ih : ∀ e ∈ args, TypesTidily c e) : TypesTidily c (.construct name args) := by
  intro W Γ st st' ty hW hΓ h
  obtain ⟨info, hinfo, hlen, s, st₁, hargs, rfl, rfl⟩ := start_expr_construct.mp h
  have hbound : info.Bounded := hr.field_vars name info hinfo
  have hs : Subst.Threaded W st.next (drawnTo st (st.next + info.paramCount)).next ∅ :=
    .empty hW (le_add_count _ _)
  have hcont := exprArgs_tidy ih hΓ hs (ConstructorInfo.within_fields hbound W st.next)
    (hlen.trans (length_instantiate _ _).symm) hargs
  refine ⟨hcont.threaded, hcont.threaded.apply_within ?_⟩
  exact (info.within_result W st.next).mono (grow_mono_next W _ hcont.le)

theorem TypesTidily.tuple {elems : List Expr} (ih : ∀ e ∈ elems, TypesTidily c e) :
    TypesTidily c (.tuple elems) := by
  intro W Γ st st' ty hW hΓ h
  obtain ⟨s, ts, st₁, helems, rfl, rfl⟩ := start_expr_tuple.mp h
  obtain ⟨hcont, hwithin⟩ := exprList_tidy ih hΓ (.empty hW (Int.le_refl _)) helems
  refine ⟨hcont.threaded, Ty.within_tuple.mpr fun t ht => ?_⟩
  obtain ⟨u, hu, rfl⟩ := List.mem_map.mp ht
  exact hcont.threaded.apply_within (hwithin u hu)

theorem TypesTidily.proj {tuple : Expr} {index : Nat} (ih : TypesTidily c tuple) :
    TypesTidily c (.proj tuple index) := by
  intro W Γ st st' ty hW hΓ h
  obtain ⟨tt, st₁, ht, t, hcomp, rfl, rfl⟩ := start_expr_proj.mp h
  have htt := ih hW hΓ ht
  have hwithin := htt.threaded.apply_within (htt.within.mono (live_subset _ _))
  refine ⟨htt.threaded, ?_⟩
  obtain ⟨ts, hts, hmem⟩ := component_mem hcomp
  rw [hts] at hwithin
  exact Ty.within_tuple.mp hwithin t (List.mem_of_getElem? hmem)

theorem TypesTidily.record {fields : List (String × Expr)} (ih : ∀ f ∈ fields, TypesTidily c f.2) :
    TypesTidily c (.record fields) := by
  intro W Γ st st' ty hW hΓ h
  obtain ⟨s, ts, st₁, hfields, rfl, rfl⟩ := start_expr_record.mp h
  obtain ⟨hcont, hwithin⟩ :=
    exprList_tidy (List.forall_mem_map.mpr ih) hΓ (.empty hW (Int.le_refl _)) hfields
  refine ⟨hcont.threaded, Ty.within_record.mpr fun g hg => ?_⟩
  obtain ⟨u, hu, hgu⟩ := List.mem_map.mp (List.of_mem_zip hg).2
  rw [← hgu]
  exact hcont.threaded.apply_within (hwithin u hu)

theorem TypesTidily.access {record : Expr} {label : String} (ih : TypesTidily c record) :
    TypesTidily c (.access record label) := by
  intro W Γ st st' ty hW hΓ h
  obtain ⟨rt, st₁, hrec, t, hfield, rfl, rfl⟩ := start_expr_access.mp h
  have hrt := ih hW hΓ hrec
  have hwithin := hrt.threaded.apply_within (hrt.within.mono (live_subset _ _))
  refine ⟨hrt.threaded, ?_⟩
  obtain ⟨fs, hfs, hmem⟩ := field_mem hfield
  rw [hfs] at hwithin
  exact Ty.within_record.mp hwithin (label, t) hmem

theorem TypesTidily.range {first last : Expr} (ihf : TypesTidily c first) (ihl : TypesTidily c last) :
    TypesTidily c (.range first last) := by
  intro W Γ st st' ty hW hΓ h
  obtain ⟨ft, st₁, hf, u₁, hu₁, lt, st₂, hl, u₂, hu₂, rfl, rfl⟩ := start_expr_range.mp h
  have hft := ihf hW hΓ hf
  have hthr₁ := hft.threaded.unify hft.within (Ty.within_prim _ _) hu₁
  have hs₁ := hft.threaded.comp hthr₁
  obtain ⟨hlthr, hlwithin⟩ := ihl.next hs₁ (hΓ.apply_threaded hs₁) hl
  have hs₂ := hs₁.comp hlthr
  have hthr₂ := hs₂.unify hlwithin (Ty.within_prim _ _) hu₂
  exact ⟨hs₂.comp hthr₂, Ty.within_prim _ _⟩

theorem TypesTidily.matchOn (hr : c.registry.WellFormed)
    {scrutinee : Expr} {arms : List (Pattern × Expr)} (ihs : TypesTidily c scrutinee)
    (ih : ∀ arm ∈ arms, TypesTidily c arm.2) : TypesTidily c (.matchOn scrutinee arms) := by
  intro W Γ st st' ty hW hΓ h
  obtain ⟨vt, st₁, hv, s, st₂, harms, done, st₃, hcov, rfl, rfl⟩ := start_expr_matchOn.mp h
  have hvt := ihs hW hΓ hv
  have hnext := Int.le_of_lt (lt_succ st₁.next)
  have hs : vt.subst.Threaded W st.next (drawnTo st₁ (st₁.next + 1)).next :=
    hvt.threaded.draw hnext
  have hresult : (Ty.var st₁.next).Within (grow W st.next (drawnTo st₁ (st₁.next + 1)).next) :=
    Ty.within_var.mpr (Or.inr ⟨hvt.threaded.le, lt_succ _⟩)
  have hscrutinee := hvt.within.mono ((live_subset _ _).trans (grow_mono_next W st.next hnext))
  have hcont := exprArms_tidy hr ih hΓ hs hscrutinee hresult harms
  rw [next_coverage hcov]
  exact ⟨hcont.threaded, hcont.threaded.apply_within
    (hresult.mono (grow_mono_next W _ hcont.le))⟩

theorem expr_tidy (hr : c.registry.WellFormed) (e : Expr) : TypesTidily c e := by
  induction e with
  | lit l => exact .lit l
  | var x => exact .var x
  | lam x ascription body ih => exact .lam hr ih
  | app fn arg ihf iha => exact .app ihf iha
  | letIn x ascription value body ihv ihb => exact .letIn hr ihv ihb
  | letRec x ascription value body ihv ihb => exact .letRec hr ihv ihb
  | ite cond thenBranch elseBranch ihc iht ihe => exact .ite ihc iht ihe
  | binop op left right ihl ihr => exact .binop ihl ihr
  | construct name args ih => exact .construct hr ih
  | tuple elems ih => exact .tuple ih
  | proj tuple index ih => exact .proj ih
  | record fields ih => exact .record ih
  | access record label ih => exact .access ih
  | range first last ihf ihl => exact .range ihf ihl
  | matchOn scrutinee arms ihs ih => exact .matchOn hr ihs ih

end Infer

end Polytype
