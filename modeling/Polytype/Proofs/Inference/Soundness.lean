/-
# Polytype.Proofs.Inference.Soundness — what inference finds is a type.

Every assignment that solves the substitution of a successful run turns the inferred type into a type of
the expression in the declarative sense (`expr_sound`); for a whole program, every substitution instance
of the resulting type is a type of the body (`typecheck_sound`).

The statement for expressions is about all environments of the rules that offer what the environment of
inference asks for.  This makes a substitution lemma for the rules unnecessary: at a `let` the value is
typed once more, under an assignment that keeps the quantified variables apart (`Env.exists_generic`).
-/
import Mathlib
import Polytype.Proofs.Inference.Generalization
import Polytype.Typecheck

namespace Polytype

namespace Infer

variable {r : Registry} {c : InferContext} {W : Set TyVar} {n : TyVar} {f : Assignment}

/-! ## Patterns -/

/-- Whatever is inferred for the pattern, the rules allow. -/
def SoundPattern (r : Registry) (p : Pattern) : Prop :=
  ∀ ⦃W : Set TyVar⦄ ⦃t : Ty⦄ ⦃st st' : InferState⦄ ⦃pt : PatternTyping⦄ ⦃f : Assignment⦄,
    Below W st.next → t.Within W → (pattern r p t).start st = (.ok pt, st') → pt.subst.SolvedBy f →
    PatternType r p (t.assign f) (assignAll f pt.bindings)

theorem patternList_sound (hr : r.WellFormed) {ps : List Pattern} (ih : ∀ p ∈ ps, SoundPattern r p) :
    ∀ {ts : List Ty} {s : Subst} {st st' : InferState} {pt : PatternTyping},
      s.Threaded W n st.next → (∀ t ∈ ts, t.Within (grow W n st.next)) → ps.length = ts.length →
      (patternList r ps ts s).start st = (.ok pt, st') → pt.subst.SolvedBy f →
      PatternTypes r ps (ts.map (Ty.assign f)) (assignAll f pt.bindings) := by
  induction ps with
  | nil =>
      intro ts s st st' pt _ _ hlen h _
      obtain ⟨rfl, rfl⟩ := start_patternList_nil.mp h
      obtain rfl := List.length_eq_zero_iff.mp hlen.symm
      exact .nil
  | cons p ps ihps =>
      intro ts s st st' pt hs hts hlen h hf
      cases ts with
      | nil => cases hlen
      | cons t ts =>
          obtain ⟨here, st₁, rest, st₂, hp, hps, rfl, rfl⟩ := start_patternList_cons.mp h
          obtain ⟨ht, hts⟩ := List.forall_mem_cons.mp hts
          have hexp := hs.apply_within ht
          have hhere := pattern_tidy hr p hs.below_scopeAfter hexp hp
          have hstep := Subst.Continues.comp hs hhere.threaded
          have hts₁ : ∀ u ∈ ts, u.Within (grow W n st₁.next) :=
            fun u hu => (hts u hu).mono (grow_mono_next W n hstep.le)
          have hrest := patternList_tidy (fun q _ => pattern_tidy hr q) hstep.threaded hts₁
            (Nat.succ.inj hlen) hps
          obtain ⟨hfs, hfhere⟩ := (hs.solvedBy_comp hhere.threaded).mp (hrest.1.solvedBy f hf)
          have h₁ := ih p List.mem_cons_self hs.below_scopeAfter hexp hp hfhere
          rw [hfs.assign_apply] at h₁
          have h₂ := ihps (fun q hq => ih q (List.mem_cons_of_mem p hq)) hstep.threaded hts₁
            (Nat.succ.inj hlen) hps hf
          unfold assignAll at *
          rw [List.map_append]
          exact .cons h₁ h₂

theorem SoundPattern.wildcard : SoundPattern r .wildcard := by
  intro W t st st' pt f _ _ h _
  obtain ⟨rfl, rfl⟩ := start_pure_ok.mp h
  exact .wildcard _

theorem SoundPattern.var (x : String) : SoundPattern r (.var x) := by
  intro W t st st' pt f _ _ h _
  obtain ⟨rfl, rfl⟩ := start_pure_ok.mp h
  exact .var x _

theorem SoundPattern.int (k : Int) : SoundPattern r (.int k) := by
  intro W t st st' pt f _ _ h hf
  obtain ⟨u, hu, rfl, rfl⟩ := start_pattern_int.mp h
  rw [(unify_solvedBy hu).mp hf]
  exact .int k

theorem SoundPattern.bool (b : Bool) : SoundPattern r (.bool b) := by
  intro W t st st' pt f _ _ h hf
  obtain ⟨u, hu, rfl, rfl⟩ := start_pattern_bool.mp h
  rw [(unify_solvedBy hu).mp hf]
  exact .bool b

theorem SoundPattern.con (hr : r.WellFormed) {name : String} {args : List Pattern}
    (ih : ∀ p ∈ args, SoundPattern r p) : SoundPattern r (.con name args) := by
  intro W t st st' pt f hW ht h hf
  obtain ⟨info, hinfo, hlen, u, hu, h⟩ := start_pattern_con.mp h
  have hbound : info.Bounded := hr.field_vars name info hinfo
  have hs : u.Threaded W st.next (drawnTo st (st.next + info.paramCount)).next :=
    .of_unify hW (le_add_count _ _) (ht.mono (subset_grow _ _ _)) (info.within_result W st.next) hu
  have hfields := ConstructorInfo.within_fields hbound W st.next
  have hlen := hlen.trans (length_instantiate info st.next).symm
  have htidy := patternList_tidy (fun q _ => pattern_tidy hr q) hs hfields hlen h
  have hargs := patternList_sound hr ih hs hfields hlen h hf
  -- the parameters of the constructor are what the assignment makes of the drawn variables
  rw [ConstructorInfo.map_assign_instantiate hbound] at hargs
  rw [(unify_solvedBy hu).mp (htidy.1.solvedBy f hf), info.assign_result]
  exact .con hinfo (by simp [length_freshTys, ConstructorInfo.paramCount]) hargs

theorem SoundPattern.tuple (hr : r.WellFormed) {elems : List Pattern}
    (ih : ∀ p ∈ elems, SoundPattern r p) : SoundPattern r (.tuple elems) := by
  intro W t st st' pt f hW ht h hf
  obtain ⟨u, hu, h⟩ := start_pattern_tuple.mp h
  have hfresh := within_freshTys W st.next elems.length
  have hs : u.Threaded W st.next (drawnTo st (st.next + elems.length)).next :=
    .of_unify hW (le_add_count _ _) (ht.mono (subset_grow _ _ _)) (Ty.within_tuple.mpr hfresh) hu
  have hlen := (length_freshTys st.next elems.length).symm
  have htidy := patternList_tidy (fun q _ => pattern_tidy hr q) hs hfresh hlen h
  rw [(unify_solvedBy hu).mp (htidy.1.solvedBy f hf), Ty.assign_tuple]
  exact .tuple (patternList_sound hr ih hs hfresh hlen h hf)

theorem SoundPattern.record (hr : r.WellFormed) {fields : List (String × Pattern)}
    (ih : ∀ f ∈ fields, SoundPattern r f.2) : SoundPattern r (.record fields) := by
  intro W t st st' pt f hW ht h hf
  obtain ⟨s, ts, st₁, hfields, h⟩ := start_pattern_record.mp h
  obtain ⟨hs, hts⟩ := recordFields_tidy hW ht hfields
  have hlen := recordFields_length hfields
  have htidy := patternList_tidy (fun q _ => pattern_tidy hr q) hs hts hlen h
  have hps := patternList_sound hr (List.forall_mem_map.mpr ih) hs hts hlen h hf
  rcases start_recordFields hfields with ⟨known, rfl, hknown, -, -⟩ | ⟨-, hu, -⟩
  · -- the record is known: the pattern names some of its fields
    rw [Ty.assign_record]
    refine .record (fun g hg => ?_) hps
    rw [List.zip_map_right] at hg
    obtain ⟨g₀, hg₀, rfl⟩ := List.mem_map.mp hg
    exact List.mem_map.mpr ⟨g₀, (fieldTypes_spec hknown).2 g₀ hg₀, rfl⟩
  · rw [(unify_solvedBy hu).mp (htidy.1.solvedBy f hf), Ty.assign_record_zip]
    exact .record (fun g hg => hg) hps

theorem pattern_sound (hr : r.WellFormed) (p : Pattern) : SoundPattern r p := by
  induction p with
  | wildcard => exact .wildcard
  | var x => exact .var x
  | int k => exact .int k
  | bool b => exact .bool b
  | con name args ih => exact .con hr ih
  | tuple elems ih => exact .tuple hr ih
  | record fields ih => exact .record hr ih

/-! ## Expressions -/

/-- Whatever is inferred for the expression, the rules allow. -/
def SoundExpr (c : InferContext) (e : Expr) : Prop :=
  ∀ ⦃W : Set TyVar⦄ ⦃Γ Δ : Env⦄ ⦃st st' : InferState⦄ ⦃ty : Typing⦄ ⦃f : Assignment⦄,
    Γ.Clean W st.next → (expr c Γ e).start st = (.ok ty, st') → ty.subst.SolvedBy f →
    Env.Offers f Γ Δ → HasType c.registry Δ e (ty.type.assign f)

/-- A run that follows another one. -/
theorem SoundExpr.next {e : Expr} (he : SoundExpr c e) {Γ Δ : Env} {s : Subst} {st st' : InferState}
    {ty : Typing} (hΓ : Γ.Clean W n) (hs : s.Threaded W n st.next)
    (h : (expr c (Γ.apply s) e).start st = (.ok ty, st')) (hfs : s.SolvedBy f)
    (hf : ty.subst.SolvedBy f) (hΔ : Env.Offers f Γ Δ) : HasType c.registry Δ e (ty.type.assign f) :=
  he (hΓ.apply hs) h hf (hΔ.apply hΓ hs hfs)

theorem ascribe_sound (hr : r.WellFormed) {ascription : Option TypeExpr} {vt ty : Typing}
    {st st' : InferState} (hv : vt.Tidy W n st.next)
    (h : (ascribe r ascription vt).start st = (.ok ty, st')) (hf : ty.subst.SolvedBy f) :
    ty.type.assign f = vt.type.assign f ∧ Ascribed r.toTypeTable ascription (vt.type.assign f) := by
  cases ascription with
  | none =>
      obtain ⟨rfl, rfl⟩ := start_pure_ok.mp h
      exact ⟨rfl, trivial⟩
  | some e =>
      obtain ⟨t, st₁, ht, u, hu, rfl, rfl⟩ := start_ascribe_some.mp h
      have ht : (ascribedOrFresh r (some e)).start st = (.ok t, st₁) := ht
      obtain ⟨hle, hnew, hmet⟩ := ascribedOrFresh_sound hr ht
      have hs := hv.threaded.draw hle
      have hthr := hs.unify (hv.within.mono (hv.threaded.scopeAfter_subset_draw hle))
        (within_scopeAfter_of_new hv.threaded hnew) hu
      have hfu := ((hs.solvedBy_comp hthr).mp hf).2
      refine ⟨hfu.assign_apply _, ?_⟩
      rw [(unify_solvedBy hu).mp hfu]
      exact hmet f

theorem generalizes_generalize (Δ : Env) (t : Ty) : Δ.Generalizes t (Δ.generalize t) := by
  refine ⟨rfl, fun v => ?_⟩
  rw [Env.mem_quantified_generalize, Env.free_iff]

theorem exprArgs_sound (hr : c.registry.WellFormed) {es : List Expr}
    (ih : ∀ e ∈ es, SoundExpr c e) {Γ Δ : Env} (hΓ : Γ.Clean W n) (hΔ : Env.Offers f Γ Δ) :
    ∀ {ts : List Ty} {s s' : Subst} {st st' : InferState}, s.Threaded W n st.next →
      (∀ t ∈ ts, t.Within (grow W n st.next)) → es.length = ts.length →
      (exprArgs c Γ es ts s).start st = (.ok s', st') → s'.SolvedBy f →
      HaveTypes c.registry Δ es (ts.map (Ty.assign f)) := by
  induction es with
  | nil =>
      intro ts s s' st st' _ _ hlen h _
      obtain rfl := List.length_eq_zero_iff.mp hlen.symm
      exact .nil
  | cons e es ihes =>
      intro ts s s' st st' hs hts hlen h hf
      cases ts with
      | nil => cases hlen
      | cons t ts =>
          obtain ⟨xt, st₁, hx, u, hu, h⟩ := start_exprArgs_cons.mp h
          obtain ⟨ht, hts⟩ := List.forall_mem_cons.mp hts
          obtain ⟨hxthr, hxwithin⟩ := (expr_tidy hr e).next hs (hΓ.free.apply_threaded hs) hx
          have hs₁ := hs.comp hxthr
          have ht₁ := hs₁.apply_within (ht.mono (grow_mono_next W n hxthr.le))
          have hthr := hs₁.unify ht₁ hxwithin hu
          have hts₁ : ∀ v ∈ ts, v.Within (grow W n st₁.next) :=
            fun v hv => (hts v hv).mono (grow_mono_next W n hxthr.le)
          have hrest := exprArgs_tidy (fun q _ => expr_tidy hr q) hΓ.free (hs₁.comp hthr) hts₁
            (Nat.succ.inj hlen) h
          obtain ⟨hfs₁, hfu⟩ := (hs₁.solvedBy_comp hthr).mp (hrest.solvedBy f hf)
          obtain ⟨hfs, hfx⟩ := (hs.solvedBy_comp hxthr).mp hfs₁
          have hhead := (ih e List.mem_cons_self).next hΓ hs hx hfs hfx hΔ
          rw [← (unify_solvedBy hu).mp hfu, hfs₁.assign_apply] at hhead
          exact .cons hhead (ihes (fun q hq => ih q (List.mem_cons_of_mem e hq)) (hs₁.comp hthr) hts₁
            (Nat.succ.inj hlen) h hf)

theorem exprList_sound (hr : c.registry.WellFormed) {es : List Expr}
    (ih : ∀ e ∈ es, SoundExpr c e) {Γ Δ : Env} (hΓ : Γ.Clean W n) (hΔ : Env.Offers f Γ Δ) :
    ∀ {s s' : Subst} {ts : List Ty} {st st' : InferState}, s.Threaded W n st.next →
      (exprList c Γ es s).start st = (.ok (s', ts), st') → s'.SolvedBy f →
      HaveTypes c.registry Δ es (ts.map (Ty.assign f)) := by
  induction es with
  | nil =>
      intro s s' ts st st' _ h _
      obtain ⟨hres, rfl⟩ := start_exprList_nil.mp h
      cases hres
      exact .nil
  | cons e es ihes =>
      intro s s' ts st st' hs h hf
      obtain ⟨xt, st₁, hx, s₁, us, st₂, hus, hres, rfl⟩ := start_exprList_cons.mp h
      cases hres
      obtain ⟨hxthr, -⟩ := (expr_tidy hr e).next hs (hΓ.free.apply_threaded hs) hx
      have hs₁ := hs.comp hxthr
      have hrest := (exprList_tidy (fun q _ => expr_tidy hr q) hΓ.free hs₁ hus).1
      obtain ⟨hfs, hfx⟩ := (hs.solvedBy_comp hxthr).mp (hrest.solvedBy f hf)
      exact .cons ((ih e List.mem_cons_self).next hΓ hs hx hfs hfx hΔ)
        (ihes (fun q hq => ih q (List.mem_cons_of_mem e hq)) hs₁ hus hf)

theorem exprArms_sound (hr : c.registry.WellFormed) {arms : List (Pattern × Expr)}
    (ih : ∀ arm ∈ arms, SoundExpr c arm.2) {Γ Δ : Env} (hΓ : Γ.Clean W n) (hΔ : Env.Offers f Γ Δ)
    {a b : Ty} :
    ∀ {s s' : Subst} {st st' : InferState}, s.Threaded W n st.next →
      a.Within (grow W n st.next) → b.Within (grow W n st.next) →
      (exprArms c Γ a b arms s).start st = (.ok s', st') → s'.SolvedBy f →
      ArmsHaveType c.registry Δ (a.assign f) arms (b.assign f) := by
  induction arms with
  | nil => exact fun _ _ _ _ _ => .nil
  | cons arm arms iharms =>
      intro s s' st st' hs ha hb h hf
      obtain ⟨p, e⟩ := arm
      obtain ⟨pt, st₁, hp, bt, st₂, hbody, u, hu, h⟩ := start_exprArms_cons.mp h
      have hexp := hs.apply_within ha
      have hptidy := pattern_tidy hr p hs.below_scopeAfter hexp hp
      have hs₁ := Subst.Continues.comp hs hptidy.threaded
      have hΓ₁ := (hΓ.apply hs₁.threaded).bindAll (within_bindings hs hptidy)
      obtain ⟨hbthr, hbwithin⟩ := (expr_tidy hr e).next hs₁.threaded hΓ₁.free hbody
      have hs₂ := hs₁.trans (.comp hs₁.threaded hbthr)
      have hb₂ := hb.mono (grow_mono_next W n hs₂.le)
      have hthr := hs₂.threaded.unify (hs₂.threaded.apply_within hb₂) hbwithin hu
      have hs₃ := hs₂.trans (.comp hs₂.threaded hthr)
      have ha₃ := ha.mono (grow_mono_next W n hs₃.le)
      have hrest := exprArms_tidy hr (fun q _ => expr_tidy hr q.2) hΓ.free hs₃.threaded ha₃ hb₂ h
      -- the assignment solves every step up to here
      obtain ⟨hfs₂, hfu⟩ := (hs₂.threaded.solvedBy_comp hthr).mp (hrest.solvedBy f hf)
      obtain ⟨hfs₁, hfb⟩ := (hs₁.threaded.solvedBy_comp hbthr).mp hfs₂
      obtain ⟨hfs, hfp⟩ := (hs.solvedBy_comp hptidy.threaded).mp hfs₁
      have hpattern := pattern_sound hr p hs.below_scopeAfter hexp hp hfp
      rw [hfs.assign_apply] at hpattern
      have hΔ₁ := (hΔ.apply hΓ hs₁.threaded hfs₁).bindAll
        (pt.bindings.map fun b => (b.1, (pt.subst.comp s).apply b.2))
      rw [assignAll_apply hfs₁] at hΔ₁
      have hbt := ih (p, e) List.mem_cons_self hΓ₁ hbody hfb hΔ₁
      rw [← (unify_solvedBy hu).mp hfu, hfs₂.assign_apply] at hbt
      exact .cons hpattern hbt (iharms (fun q hq => ih q (List.mem_cons_of_mem _ hq)) hs₃.threaded
        ha₃ hb₂ h hf)

/-- What the operands of each kind of operator become. -/
def OperandsMeet : OperatorKind → Ty → Ty → Prop
  | .arithmetic, a, b => a = .int ∧ b = .int
  | .ordering, a, b => a = b ∧ (a = .int ∨ a = .char)
  | .equality, a, b => a = b

theorem operands_sound {kind : OperatorKind} {a b : Ty} {u : Subst} (ha : a.Within W)
    (hb : b.Within W) (h : operands kind a b = .ok u) (hf : u.SolvedBy f) :
    OperandsMeet kind (a.assign f) (b.assign f) := by
  cases kind with
  | arithmetic =>
      simp only [operands, bind_eq_ok_iff, pure_eq_ok_iff] at h
      obtain ⟨s₁, h₁, s₂, h₂, rfl⟩ := h
      have hs₁ := unify_settled h₁ ha (Ty.within_prim W _)
      have hs₂ := unify_settled h₂ (hs₁.apply_within hb) (Ty.within_prim _ _)
      obtain ⟨hf₁, hf₂⟩ := hs₂.solvedBy_comp.mp hf
      have hb₂ := (unify_solvedBy h₂).mp hf₂
      rw [hf₁.assign_apply] at hb₂
      exact ⟨(unify_solvedBy h₁).mp hf₁, hb₂⟩
  | equality => exact (unify_solvedBy h).mp hf
  | ordering =>
      simp only [operands, bind_eq_ok_iff] at h
      obtain ⟨s, hs, h⟩ := h
      have hset := unify_settled hs ha hb
      split at h
      · next v hv =>
          simp only [bind_eq_ok_iff, pure_eq_ok_iff] at h
          obtain ⟨s₁, h₁, rfl⟩ := h
          have hwithin : (Ty.var v).Within (live W s) := hv ▸ hset.apply_within ha
          obtain ⟨hf₀, hf₁⟩ :=
            (unify_settled h₁ hwithin (Ty.within_prim _ _)).solvedBy_comp.mp hf
          refine ⟨(unify_solvedBy hs).mp hf₀, Or.inl ?_⟩
          rw [← hf₀.assign_apply, hv]
          exact (unify_solvedBy h₁).mp hf₁
      · next ht =>
          cases h
          refine ⟨(unify_solvedBy hs).mp hf, Or.inl ?_⟩
          rw [← hf.assign_apply, ht]
          rfl
      · next ht =>
          cases h
          refine ⟨(unify_solvedBy hs).mp hf, Or.inr ?_⟩
          rw [← hf.assign_apply, ht]
          rfl
      · exact absurd h raise_ne_ok

theorem hasType_binop {Δ : Env} {op : String} {kind : OperatorKind} {left right : Expr} {a b : Ty}
    (hop : operatorKind? op = some kind) (hl : HasType r Δ left a) (hright : HasType r Δ right b)
    (hmeet : OperandsMeet kind a b) : HasType r Δ (.binop op left right) (resultType kind) := by
  unfold operatorKind? at hop
  split at hop
  · next hmem =>
      cases hop
      obtain ⟨rfl, rfl⟩ := hmeet
      exact .arithmetic hmem hl hright
  · split at hop
    · next hmem =>
        cases hop
        obtain ⟨rfl, hty⟩ := hmeet
        exact .ordering hmem hty hl hright
    · split at hop
      · next hmem =>
          cases hop
          obtain rfl := hmeet
          exact .equality hmem hl hright
      · cases hop

theorem SoundExpr.lit (l : Literal) : SoundExpr c (.lit l) := by
  intro W Γ Δ st st' ty f _ h _ _
  obtain ⟨rfl, rfl⟩ := start_pure_ok.mp h
  cases l with
  | int k => exact .int k
  | bool b => exact .bool b
  | char ch => exact .char ch

theorem SoundExpr.var (x : String) : SoundExpr c (.var x) := by
  intro W Γ Δ st st' ty f _ h _ hΔ
  obtain ⟨σ, hσ, rfl, rfl⟩ := start_expr_var.mp h
  obtain ⟨τ, hτ, hinst⟩ := hΔ x σ hσ
  exact .var hτ (hinst _ (σ.instanceUnder_instantiate st.next f))

theorem SoundExpr.lam (hr : c.registry.WellFormed)
    {x : String} {ascription : Option TypeExpr} {body : Expr} (ih : SoundExpr c body) :
    SoundExpr c (.lam x ascription body) := by
  intro W Γ Δ st st' ty f hΓ h hf hΔ
  obtain ⟨dom, st₁, hdom, bt, st₂, hbody, rfl, rfl⟩ := start_expr_lam.mp h
  obtain ⟨hle, hnew, hmet⟩ := ascribedOrFresh_sound hr hdom
  have hdomW := hnew.mono (grow_subset (Set.empty_subset W) st.next st₁.next)
  have hbt := ih ((hΓ.grow hle).bindTy hdomW x) hbody hf (hΔ.bindTy x dom)
  rw [Ty.assign_fn, hf.assign_apply]
  exact .lam (hmet f) hbt

theorem SoundExpr.app (hr : c.registry.WellFormed) {fn arg : Expr} (ihf : SoundExpr c fn)
    (iha : SoundExpr c arg) : SoundExpr c (.app fn arg) := by
  intro W Γ Δ st st' ty f hΓ h hf hΔ
  obtain ⟨ft, st₁, hfn, xt, st₂, hx, u, hu, rfl, rfl⟩ := start_expr_app.mp h
  have hft := expr_tidy hr fn hΓ.below hΓ.free hfn
  have hs := hft.threaded
  obtain ⟨hxthr, hxwithin⟩ := (expr_tidy hr arg).next hs (hΓ.free.apply_threaded hs) hx
  have hs₁ := (hs.comp hxthr).draw (Int.le_of_lt (lt_succ st₂.next))
  have hgrow := (hs.comp hxthr).scopeAfter_subset_draw (Int.le_of_lt (lt_succ st₂.next))
  have hresult : (Ty.var st₂.next).Within (scopeAfter W st.next (st₂.next + 1) _) :=
    Ty.within_var.mpr ((hs.comp hxthr).mem_scopeAfter_draw (Int.le_refl _) (lt_succ _))
  have hthr := hs₁.unify ((hs.within_comp hxthr hft.within).mono hgrow)
    (Ty.within_fn.mpr ⟨hxwithin.mono hgrow, hresult⟩) hu
  obtain ⟨hfs₁, hfu⟩ := (hs₁.solvedBy_comp hthr).mp hf
  obtain ⟨hfs, hfx⟩ := (hs.solvedBy_comp hxthr).mp hfs₁
  -- the function has the type of the unification: from the argument to the new variable
  have hfun := ihf hΓ hfn hfs hΔ
  have heq := (unify_solvedBy hu).mp hfu
  rw [hfx.assign_apply, Ty.assign_fn] at heq
  rw [heq] at hfun
  have hty : (u.image st₂.next).assign f = (Ty.var st₂.next).assign f := hfu st₂.next
  rw [hty]
  exact .app hfun (iha.next hΓ hs hx hfs hfx hΔ)

theorem SoundExpr.letIn (hr : c.registry.WellFormed)
    {x : String} {ascription : Option TypeExpr} {value body : Expr} (ihv : SoundExpr c value)
    (ihb : SoundExpr c body) : SoundExpr c (.letIn x ascription value body) := by
  intro W Γ Δ st st' ty f hΓ h hf hΔ
  obtain ⟨vt, st₁, hv, xt, st₂, hx, bt, st₃, hb, rfl, rfl⟩ := start_expr_letIn.mp h
  have hvt := expr_tidy hr value hΓ.below hΓ.free hv
  obtain ⟨hxt, hcont⟩ := ascribe_tidy hr hvt hx
  have hΓ₁ := hΓ.apply hxt.threaded
  have hΓ₂ := hΓ₁.generalize hxt.within x
  obtain ⟨hbthr, -⟩ :=
    (expr_tidy hr body).next hxt.threaded (hΓ₂.free.mono fun v hv => hv.1) hb
  obtain ⟨hfx, hfb⟩ := (hxt.threaded.solvedBy_comp hbthr).mp hf
  -- the value is typed under `g`, generically; the body goes on under `f`
  obtain ⟨g, hg, hgΔ, hgen⟩ := Env.exists_generic hΓ hxt.threaded hxt.within hfx hΔ
  obtain ⟨hty, hmet⟩ := ascribe_sound hr hvt hx hg
  have hσ := generalizes_generalize Δ (xt.type.assign g)
  have hbt := ihb hΓ₂ hb hfb (hgen x _ hσ)
  rw [hty] at hσ hbt
  exact .letIn (ihv hΓ hv (hcont.solvedBy g hg) hgΔ) hmet hσ hbt

theorem SoundExpr.letRec (hr : c.registry.WellFormed)
    {x : String} {ascription : Option TypeExpr} {value body : Expr} (ihv : SoundExpr c value)
    (ihb : SoundExpr c body) : SoundExpr c (.letRec x ascription value body) := by
  intro W Γ Δ st st' ty f hΓ h hf hΔ
  obtain ⟨self, st₁, hself, vt, st₂, hv, u, hu, bt, st₃, hb, rfl, rfl⟩ := start_expr_letRec.mp h
  obtain ⟨hle, hnew, hmet⟩ := ascribedOrFresh_sound hr hself
  have hselfW := hnew.mono (grow_subset (Set.empty_subset W) st.next st₁.next)
  have hΓv := (hΓ.grow hle).bindTy hselfW x
  have hvt := expr_tidy hr value hΓv.below hΓv.free hv
  have hs : vt.subst.Threaded W st.next st₂.next := .of_grow hΓ.below hle hvt.threaded
  have hself₂ := hs.apply_within (hselfW.mono (grow_mono_next W _ hvt.threaded.le))
  have hvwithin := Subst.Threaded.scopeAfter_grow hle hvt.threaded ▸ hvt.within
  have hthr := hs.unify hself₂ hvwithin hu
  have hs₁ := hs.comp hthr
  have hwithin := hs.within_comp hthr hvwithin
  have hΓ₁ := hΓ.apply hs₁
  have hΓ₂ := hΓ₁.generalize hwithin x
  obtain ⟨hbthr, -⟩ := (expr_tidy hr body).next hs₁ (hΓ₂.free.mono fun v hv => hv.1) hb
  obtain ⟨hfs₁, hfb⟩ := (hs₁.solvedBy_comp hbthr).mp hf
  obtain ⟨g, hg, hgΔ, hgen⟩ := Env.exists_generic hΓ hs₁ hwithin hfs₁ hΔ
  obtain ⟨hgs, hgu⟩ := (hs.solvedBy_comp hthr).mp hg
  have hσ := generalizes_generalize Δ ((u.apply vt.type).assign g)
  have hbt := ihb hΓ₂ hb hfb (hgen x _ hσ)
  -- the value has the type that its variable has inside it
  have hty : vt.type.assign g = self.assign g := by
    rw [← (unify_solvedBy hu).mp hgu, hgs.assign_apply]
  have hval := ihv hΓv hv hgs (hgΔ.bindTy x self)
  rw [hty] at hval
  rw [hgu.assign_apply, hty] at hσ hbt
  exact .letRec (hmet g) hval hσ hbt

theorem SoundExpr.ite (hr : c.registry.WellFormed) {cond thenBranch elseBranch : Expr}
    (ihc : SoundExpr c cond) (iht : SoundExpr c thenBranch) (ihe : SoundExpr c elseBranch) :
    SoundExpr c (.ite cond thenBranch elseBranch) := by
  intro W Γ Δ st st' ty f hΓ h hf hΔ
  obtain ⟨ct, st₁, hc, u₁, hu₁, tt, st₂, ht, et, st₃, he, u₂, hu₂, rfl, rfl⟩ := start_expr_ite.mp h
  have hct := expr_tidy hr cond hΓ.below hΓ.free hc
  have hthr₁ := hct.threaded.unify hct.within (Ty.within_prim _ _) hu₁
  have hs₁ := hct.threaded.comp hthr₁
  obtain ⟨htthr, htwithin⟩ := (expr_tidy hr thenBranch).next hs₁ (hΓ.free.apply_threaded hs₁) ht
  have hs₂ := hs₁.comp htthr
  obtain ⟨hethr, hewithin⟩ := (expr_tidy hr elseBranch).next hs₂ (hΓ.free.apply_threaded hs₂) he
  have hs₃ := hs₂.comp hethr
  have hthr₂ := hs₃.unify (hs₂.within_comp hethr htwithin) hewithin hu₂
  obtain ⟨hfs₃, hfu₂⟩ := (hs₃.solvedBy_comp hthr₂).mp hf
  obtain ⟨hfs₂, hfe⟩ := (hs₂.solvedBy_comp hethr).mp hfs₃
  obtain ⟨hfs₁, hft⟩ := (hs₁.solvedBy_comp htthr).mp hfs₂
  obtain ⟨hfc, hfu₁⟩ := (hct.threaded.solvedBy_comp hthr₁).mp hfs₁
  have hcond := ihc hΓ hc hfc hΔ
  rw [(unify_solvedBy hu₁).mp hfu₁] at hcond
  have hthen := iht.next hΓ hs₁ ht hfs₁ hft hΔ
  rw [← hfe.assign_apply, (unify_solvedBy hu₂).mp hfu₂] at hthen
  rw [hfu₂.assign_apply]
  exact .ite hcond hthen (ihe.next hΓ hs₂ he hfs₂ hfe hΔ)

theorem SoundExpr.binop (hr : c.registry.WellFormed) {op : String} {left right : Expr}
    (ihl : SoundExpr c left) (ihr : SoundExpr c right) : SoundExpr c (.binop op left right) := by
  intro W Γ Δ st st' ty f hΓ h hf hΔ
  obtain ⟨kind, hkind, lt, st₁, hl, rt, st₂, hright, u, hu, rfl, rfl⟩ := start_expr_binop.mp h
  have hlt := expr_tidy hr left hΓ.below hΓ.free hl
  have hs := hlt.threaded
  obtain ⟨hrthr, hrwithin⟩ := (expr_tidy hr right).next hs (hΓ.free.apply_threaded hs) hright
  have hlwithin := hs.within_comp hrthr hlt.within
  obtain ⟨hfs₁, hfu⟩ := (operands_settled hlwithin hrwithin hu).solvedBy_comp.mp hf
  obtain ⟨hfs, hfr⟩ := (hs.solvedBy_comp hrthr).mp hfs₁
  have hmeet := operands_sound hlwithin hrwithin hu hfu
  rw [hfr.assign_apply] at hmeet
  have hresult : (resultType kind).assign f = resultType kind := by cases kind <;> rfl
  rw [hresult]
  exact hasType_binop hkind (ihl hΓ hl hfs hΔ) (ihr.next hΓ hs hright hfs hfr hΔ) hmeet

theorem SoundExpr.construct (hr : c.registry.WellFormed) {name : String} {args : List Expr}
    (ih : ∀ e ∈ args, SoundExpr c e) : SoundExpr c (.construct name args) := by
  intro W Γ Δ st st' ty f hΓ h hf hΔ
  obtain ⟨info, hinfo, hlen, s, st₁, hargs, rfl, rfl⟩ := start_expr_construct.mp h
  have hbound : info.Bounded := hr.field_vars name info hinfo
  have hs : Subst.Threaded W st.next (drawnTo st (st.next + info.paramCount)).next ∅ :=
    .empty hΓ.below (le_add_count _ _)
  have htypes := exprArgs_sound hr ih hΓ hΔ hs (ConstructorInfo.within_fields hbound W st.next)
    (hlen.trans (length_instantiate _ _).symm) hargs hf
  rw [ConstructorInfo.map_assign_instantiate hbound] at htypes
  rw [hf.assign_apply, info.assign_result]
  exact .construct hinfo (by simp [length_freshTys, ConstructorInfo.paramCount]) htypes

theorem SoundExpr.tuple (hr : c.registry.WellFormed) {elems : List Expr}
    (ih : ∀ e ∈ elems, SoundExpr c e) : SoundExpr c (.tuple elems) := by
  intro W Γ Δ st st' ty f hΓ h hf hΔ
  obtain ⟨s, ts, st₁, helems, rfl, rfl⟩ := start_expr_tuple.mp h
  have htypes := exprList_sound hr ih hΓ hΔ (.empty hΓ.below (Int.le_refl _)) helems hf
  rw [Ty.assign_tuple, Subst.SolvedBy.map_assign hf]
  exact .tuple htypes

theorem SoundExpr.proj {tuple : Expr} {index : Nat} (ih : SoundExpr c tuple) :
    SoundExpr c (.proj tuple index) := by
  intro W Γ Δ st st' ty f hΓ h hf hΔ
  obtain ⟨tt, st₁, ht, t, hcomp, rfl, rfl⟩ := start_expr_proj.mp h
  obtain ⟨ts, hts, hmem⟩ := component_mem hcomp
  have htuple := ih hΓ ht hf hΔ
  rw [← hf.assign_apply, hts, Ty.assign_tuple] at htuple
  refine .proj htuple ?_
  rw [List.getElem?_map, hmem]
  rfl

theorem SoundExpr.record (hr : c.registry.WellFormed) {fields : List (String × Expr)}
    (ih : ∀ f ∈ fields, SoundExpr c f.2) : SoundExpr c (.record fields) := by
  intro W Γ Δ st st' ty f hΓ h hf hΔ
  obtain ⟨s, ts, st₁, hfields, rfl, rfl⟩ := start_expr_record.mp h
  have htypes := exprList_sound hr (List.forall_mem_map.mpr ih) hΓ hΔ
    (.empty hΓ.below (Int.le_refl _)) hfields hf
  rw [Ty.assign_record_zip, Subst.SolvedBy.map_assign hf]
  exact .record htypes

theorem SoundExpr.access {record : Expr} {label : String} (ih : SoundExpr c record) :
    SoundExpr c (.access record label) := by
  intro W Γ Δ st st' ty f hΓ h hf hΔ
  obtain ⟨rt, st₁, hrec, t, hfield, rfl, rfl⟩ := start_expr_access.mp h
  obtain ⟨fs, hfs, hmem⟩ := field_mem hfield
  have hrecord := ih hΓ hrec hf hΔ
  rw [← hf.assign_apply, hfs, Ty.assign_record] at hrecord
  exact .access hrecord (List.mem_map.mpr ⟨(label, t), hmem, rfl⟩)

theorem SoundExpr.range (hr : c.registry.WellFormed) {first last : Expr} (ihf : SoundExpr c first)
    (ihl : SoundExpr c last) : SoundExpr c (.range first last) := by
  intro W Γ Δ st st' ty f hΓ h hf hΔ
  obtain ⟨ft, st₁, hfirst, u₁, hu₁, lt, st₂, hl, u₂, hu₂, rfl, rfl⟩ := start_expr_range.mp h
  have hft := expr_tidy hr first hΓ.below hΓ.free hfirst
  have hthr₁ := hft.threaded.unify hft.within (Ty.within_prim _ _) hu₁
  have hs₁ := hft.threaded.comp hthr₁
  obtain ⟨hlthr, hlwithin⟩ := (expr_tidy hr last).next hs₁ (hΓ.free.apply_threaded hs₁) hl
  have hs₂ := hs₁.comp hlthr
  have hthr₂ := hs₂.unify hlwithin (Ty.within_prim _ _) hu₂
  obtain ⟨hfs₂, hfu₂⟩ := (hs₂.solvedBy_comp hthr₂).mp hf
  obtain ⟨hfs₁, hfl⟩ := (hs₁.solvedBy_comp hlthr).mp hfs₂
  obtain ⟨hff, hfu₁⟩ := (hft.threaded.solvedBy_comp hthr₁).mp hfs₁
  have hlo := ihf hΓ hfirst hff hΔ
  rw [(unify_solvedBy hu₁).mp hfu₁] at hlo
  have hhi := ihl.next hΓ hs₁ hl hfs₁ hfl hΔ
  rw [(unify_solvedBy hu₂).mp hfu₂] at hhi
  exact .range hlo hhi

theorem SoundExpr.matchOn (hr : c.registry.WellFormed)
    {scrutinee : Expr} {arms : List (Pattern × Expr)} (ihs : SoundExpr c scrutinee)
    (ih : ∀ arm ∈ arms, SoundExpr c arm.2) : SoundExpr c (.matchOn scrutinee arms) := by
  intro W Γ Δ st st' ty f hΓ h hf hΔ
  obtain ⟨vt, st₁, hv, s, st₂, harms, done, st₃, -, rfl, rfl⟩ := start_expr_matchOn.mp h
  have hvt := expr_tidy hr scrutinee hΓ.below hΓ.free hv
  have hnext := Int.le_of_lt (lt_succ st₁.next)
  have hs : vt.subst.Threaded W st.next (drawnTo st₁ (st₁.next + 1)).next :=
    hvt.threaded.draw hnext
  have hresult : (Ty.var st₁.next).Within (grow W st.next (drawnTo st₁ (st₁.next + 1)).next) :=
    Ty.within_var.mpr (Or.inr ⟨hvt.threaded.le, lt_succ _⟩)
  have hscrutinee := hvt.within.mono ((live_subset _ _).trans (grow_mono_next W st.next hnext))
  have hcont := exprArms_tidy hr (fun q _ => expr_tidy hr q.2) hΓ.free hs hscrutinee hresult harms
  have htypes := exprArms_sound hr ih hΓ hΔ hs hscrutinee hresult harms hf
  have hty : (s.image st₁.next).assign f = (Ty.var st₁.next).assign f := hf st₁.next
  rw [hty]
  exact .matchOn (ihs hΓ hv (hcont.solvedBy f hf) hΔ) htypes

theorem expr_sound (hr : c.registry.WellFormed) (e : Expr) : SoundExpr c e := by
  induction e with
  | lit l => exact .lit l
  | var x => exact .var x
  | lam x ascription body ih => exact .lam hr ih
  | app fn arg ihf iha => exact .app hr ihf iha
  | letIn x ascription value body ihv ihb => exact .letIn hr ihv ihb
  | letRec x ascription value body ihv ihb => exact .letRec hr ihv ihb
  | ite cond thenBranch elseBranch ihc iht ihe => exact .ite hr ihc iht ihe
  | binop op left right ihl ihr => exact .binop hr ihl ihr
  | construct name args ih => exact .construct hr ih
  | tuple elems ih => exact .tuple hr ih
  | proj tuple index ih => exact .proj ih
  | record fields ih => exact .record hr ih
  | access record label ih => exact .access ih
  | range first last ihf ihl => exact .range hr ihf ihl
  | matchOn scrutinee arms ihs ih => exact .matchOn hr ihs ih

end Infer

/-! ## Programs -/

theorem below_start : Below ∅ ({} : InferState).next := fun _ hv => absurd hv id

/-- **Soundness.** When a program passes, every instance of the type that is found is a type of its
body. -/
theorem typecheck_sound {p : Program} {options : Options} {checked : Checked}
    (h : typecheck p options = .ok checked) :
    ∃ r, Registry.build p.decls = .ok r ∧
      ∀ θ : Subst, HasType r ∅ p.body (θ.apply checked.scheme.body) := by
  obtain ⟨r, hbuild, ty, st, hrun, rfl⟩ := typecheck_ok.mp h
  have hr := Registry.build_wellFormed hbuild
  refine ⟨r, hbuild, fun θ => ?_⟩
  have htidy := Infer.expr_tidy hr p.body below_start (Env.freeIn_empty ∅) hrun
  -- the assignment that first applies the substitution of the run and then `θ`
  have hsolved := htidy.threaded.settled.idempotent.solvedBy θ.image
  have hbody := Infer.expr_sound hr p.body (.empty below_start) hrun hsolved (.empty _ ∅)
  rw [← Subst.assign_apply, ← Subst.apply_eq_assign] at hbody
  exact hbody

/-- A function whose body uses a generalized variable at two types, next to a variable that is held
fast. -/
def pairing : Program where
  decls := [.sum "Option" ["a"] [⟨"None", []⟩, ⟨"Some", [.var "a"]⟩]]
  body :=
    .lam "y" none
      (.letIn "pair" none (.lam "x" none (.tuple [.var "x", .var "y"]))
        (.matchOn (.construct "Some" [.app (.var "pair") (.lit (.int 1))])
          [(.con "Some" [.var "p"], .tuple [.var "p", .app (.var "pair") (.lit (.bool true))])]))

/-- The type of `pairing`, for the type of its argument. -/
def pairingType (a : Ty) : Ty := .fn a (.tuple [.tuple [.int, a], .tuple [.bool, a]])

theorem typecheck_sound_pairing :
    ∃ checked, typecheck pairing = .ok checked ∧
      ∃ r, Registry.build pairing.decls = .ok r ∧ HasType r ∅ pairing.body (pairingType .char) := by
  have hrun : (typecheck pairing).toOption.map (fun c => c.scheme.body) =
      some (pairingType (.var 0)) := by cbv
  obtain ⟨checked, hchecked, hbody⟩ := Option.map_eq_some_iff.mp hrun
  have h := eq_ok_of_toOption hchecked
  obtain ⟨r, hr, htype⟩ := typecheck_sound h
  have hchar := htype (Subst.single 0 .char)
  rw [hbody] at hchar
  exact ⟨checked, h, r, hr, hchar⟩

end Polytype
