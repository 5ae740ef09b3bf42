/-
# Polytype.Proofs.Inference.Alpha — the names of bound variables.

Two expressions are alpha-equivalent when they differ in the names of their bound variables only
(`Expr.AlphaEq`).  Inference goes the same way on both: the same variables are drawn, the same warnings
are raised, and the same typing or the same error comes out (`expr_alike`).

The induction is on the expression, with a lemma for each form, over all pairs of environments that agree on
corresponding names (`TypedAlike`).  Only `let` needs an argument: that both runs generalize alike takes that the
value is typed over what it sees.  This is itself an instance of what is to be shown, namely the comparison of the
value with itself, in the environment and in the part of it that is visible (`letIn_generalize_eq`,
`letRec_generalize_eq`).
-/
import Mathlib
import Polytype.Proofs.Inference.Erasure
import Polytype.Proofs.Inference.Pairing

namespace Polytype

/-! ## Alpha-equivalence -/

mutual
/-- The expressions are the same up to the names of bound variables; free names correspond. -/
inductive Expr.Alpha : Names → Expr → Expr → Prop
  | lit (N : Names) (l : Literal) : Alpha N (.lit l) (.lit l)
  | var {N : Names} {x y : String} : N x y → Alpha N (.var x) (.var y)
  | lam {N : Names} {x y : String} {ascription : Option TypeExpr} {body body' : Expr} :
      Alpha (N.bind x y) body body' → Alpha N (.lam x ascription body) (.lam y ascription body')
  | app {N : Names} {fn fn' arg arg' : Expr} :
      Alpha N fn fn' → Alpha N arg arg' → Alpha N (.app fn arg) (.app fn' arg')
  | letIn {N : Names} {x y : String} {ascription : Option TypeExpr} {value value' body body' : Expr} :
      Alpha N value value' → Alpha (N.bind x y) body body' →
      Alpha N (.letIn x ascription value body) (.letIn y ascription value' body')
  /-- The variable of a recursive definition is bound in its value, too. -/
  | letRec {N : Names} {x y : String} {ascription : Option TypeExpr} {value value' body body' : Expr} :
      Alpha (N.bind x y) value value' → Alpha (N.bind x y) body body' →
      Alpha N (.letRec x ascription value body) (.letRec y ascription value' body')
  | ite {N : Names} {cond cond' thenBranch thenBranch' elseBranch elseBranch' : Expr} :
      Alpha N cond cond' → Alpha N thenBranch thenBranch' → Alpha N elseBranch elseBranch' →
      Alpha N (.ite cond thenBranch elseBranch) (.ite cond' thenBranch' elseBranch')
  | binop {N : Names} {op : String} {left left' right right' : Expr} :
      Alpha N left left' → Alpha N right right' → Alpha N (.binop op left right) (.binop op left' right')
  | construct {N : Names} {name : String} {args args' : List Expr} :
      AlphaList N args args' → Alpha N (.construct name args) (.construct name args')
  | tuple {N : Names} {elems elems' : List Expr} :
      AlphaList N elems elems' → Alpha N (.tuple elems) (.tuple elems')
  | proj {N : Names} {tuple tuple' : Expr} {index : Nat} :
      Alpha N tuple tuple' → Alpha N (.proj tuple index) (.proj tuple' index)
  | record {N : Names} {fields fields' : List (String × Expr)} :
      fields.map Prod.fst = fields'.map Prod.fst → AlphaList N (fields.map Prod.snd) (fields'.map Prod.snd) →
      Alpha N (.record fields) (.record fields')
  | access {N : Names} {record record' : Expr} {label : String} :
      Alpha N record record' → Alpha N (.access record label) (.access record' label)
  | range {N : Names} {first first' last last' : Expr} :
      Alpha N first first' → Alpha N last last' → Alpha N (.range first last) (.range first' last')
  | matchOn {N : Names} {scrutinee scrutinee' : Expr} {arms arms' : List (Pattern × Expr)} :
      Alpha N scrutinee scrutinee' → AlphaArms N arms arms' →
      Alpha N (.matchOn scrutinee arms) (.matchOn scrutinee' arms')
/-- Expressions and as many others, the same up to bound names. -/
inductive Expr.AlphaList : Names → List Expr → List Expr → Prop
  | nil (N : Names) : AlphaList N [] []
  | cons {N : Names} {e e' : Expr} {es es' : List Expr} :
      Alpha N e e' → AlphaList N es es' → AlphaList N (e :: es) (e' :: es')
/-- Arms and as many others, with patterns that differ in names only. -/
inductive Expr.AlphaArms : Names → List (Pattern × Expr) → List (Pattern × Expr) → Prop
  | nil (N : Names) : AlphaArms N [] []
  | cons {N : Names} {p p' : Pattern} {e e' : Expr} {arms arms' : List (Pattern × Expr)} :
      p.unnamed = p'.unnamed → Alpha (N.bindAll (p.binders.zip p'.binders)) e e' →
      AlphaArms N arms arms' → AlphaArms N ((p, e) :: arms) ((p', e') :: arms')
end

/-- The expressions differ in the names of bound variables only. -/
def Expr.AlphaEq (e e' : Expr) : Prop := e.Alpha Eq e'

/-! ### An expression and itself -/

namespace Expr

variable {N : Names}

theorem AlphaList.self {es es' : List Expr}
    (ih : ∀ e ∈ es, ∀ {N M : Names} {e' : Expr}, N.Fixes M → e.Alpha N e' → e.Alpha M e) {M : Names}
    (hM : N.Fixes M) (h : AlphaList N es es') : AlphaList M es es := by
  induction es generalizing es' with
  | nil => exact .nil M
  | cons e es ihes =>
      cases h with
      | cons he hes =>
          refine .cons (ih e List.mem_cons_self hM he) (ihes (fun e' he' => ?_) hes)
          exact ih e' (List.mem_cons_of_mem e he')

theorem AlphaArms.self {arms arms' : List (Pattern × Expr)}
    (ih : ∀ arm ∈ arms, ∀ {N M : Names} {e' : Expr}, N.Fixes M → arm.2.Alpha N e' → arm.2.Alpha M arm.2)
    {M : Names} (hM : N.Fixes M) (h : AlphaArms N arms arms') : AlphaArms M arms arms := by
  induction arms generalizing arms' with
  | nil => exact .nil M
  | cons arm arms iharms =>
      cases h with
      | cons hpattern he harms =>
          have hbinders := hM.bindAll (Pattern.length_binders_of_unnamed hpattern)
          refine .cons rfl (ih _ List.mem_cons_self hbinders he) (iharms (fun arm' harm' => ?_) harms)
          exact ih arm' (List.mem_cons_of_mem _ harm')

theorem AlphaList.length_eq {es es' : List Expr} (h : AlphaList N es es') : es.length = es'.length := by
  induction es generalizing es' with
  | nil =>
      cases h
      rfl
  | cons e es ih =>
      cases h with
      | cons _ hes => exact congrArg (· + 1) (ih hes)

theorem AlphaArms.unnamed_eq {arms arms' : List (Pattern × Expr)} (h : AlphaArms N arms arms') :
    (arms.map Prod.fst).map Pattern.unnamed = (arms'.map Prod.fst).map Pattern.unnamed := by
  induction arms generalizing arms' with
  | nil =>
      cases h
      rfl
  | cons arm arms ih =>
      cases h with
      | cons hpattern _ harms => exact congrArg₂ List.cons hpattern (ih harms)

/-- An expression that has a counterpart is one of its own. -/
theorem Alpha.self (e : Expr) : ∀ {N M : Names} {e' : Expr}, N.Fixes M → e.Alpha N e' → e.Alpha M e := by
  induction e with
  | lit l => exact fun _ _ => .lit _ l
  | var name =>
      intro N M e' hM h
      cases h with
      | var h => exact .var (hM _ _ h)
  | lam param ascription body ih =>
      intro N M e' hM h
      cases h with
      | lam hbody => exact .lam (ih (hM.bind _ _) hbody)
  | app fn arg ihf iha =>
      intro N M e' hM h
      cases h with
      | app hf ha => exact .app (ihf hM hf) (iha hM ha)
  | letIn name ascription value body ihv ihb =>
      intro N M e' hM h
      cases h with
      | letIn hv hb => exact .letIn (ihv hM hv) (ihb (hM.bind _ _) hb)
  | letRec name ascription value body ihv ihb =>
      intro N M e' hM h
      cases h with
      | letRec hv hb => exact .letRec (ihv (hM.bind _ _) hv) (ihb (hM.bind _ _) hb)
  | ite cond thenBranch elseBranch ihc iht ihe =>
      intro N M e' hM h
      cases h with
      | ite hc ht he => exact .ite (ihc hM hc) (iht hM ht) (ihe hM he)
  | binop op left right ihl ihr =>
      intro N M e' hM h
      cases h with
      | binop hl hr => exact .binop (ihl hM hl) (ihr hM hr)
  | construct name args ih =>
      intro N M e' hM h
      cases h with
      | construct hargs => exact .construct (.self ih hM hargs)
  | tuple elems ih =>
      intro N M e' hM h
      cases h with
      | tuple helems => exact .tuple (.self ih hM helems)
  | proj tuple index ih =>
      intro N M e' hM h
      cases h with
      | proj h => exact .proj (ih hM h)
  | record fields ih =>
      intro N M e' hM h
      cases h with
      | record _ hfields => exact .record rfl (.self (List.forall_mem_map.mpr ih) hM hfields)
  | access record label ih =>
      intro N M e' hM h
      cases h with
      | access h => exact .access (ih hM h)
  | range first last ihf ihl =>
      intro N M e' hM h
      cases h with
      | range hf hl => exact .range (ihf hM hf) (ihl hM hl)
  | matchOn scrutinee arms ihs ih =>
      intro N M e' hM h
      cases h with
      | matchOn hs harms => exact .matchOn (ihs hM hs) (.self ih hM harms)

end Expr

/-! ## Forms that hand on the environment -/

namespace Infer

variable {c : InferContext}

/-- The expression is typed together with those that it corresponds to. -/
def TypedAlike (c : InferContext) (e : Expr) : Prop :=
  ∀ ⦃N : Names⦄ ⦃e' : Expr⦄ ⦃Γ Γ' : Env⦄ ⦃st : InferState⦄, e.Alpha N e' → Γ.Paired N st.next Γ' →
    Together id st (expr c Γ e) (expr c Γ' e')

theorem TypedAlike.lit (l : Literal) : TypedAlike c (.lit l) := by
  intro N e' Γ Γ' st h hΓ
  cases h
  exact .refl _

theorem TypedAlike.var (name : String) : TypedAlike c (.var name) := by
  intro N e' Γ Γ' st h hΓ
  cases h with
  | @var _ _ y hxy =>
      have hlookup : SameOutcome SameFault id (Γ.lookup name) (Γ'.lookup y) := by
        rw [Env.lookup, Env.lookup, ← hΓ.lookup name y hxy]
        cases hname : Γ[name]? with
        | some σ => exact .ok σ
        | none =>
            rw [hΓ.unbound name y hxy hname]
            exact .error rfl
      exact (Together.of_lockstep (.lift hlookup)).bind fun σ st₁ _ => .refl _

theorem TypedAlike.proj {tuple : Expr} {index : Nat} (ih : TypedAlike c tuple) :
    TypedAlike c (.proj tuple index) := by
  intro N e' Γ Γ' st h hΓ
  cases h with
  | proj h =>
      rw [expr, expr]
      exact (ih h hΓ).bind fun ty st₁ _ => .refl _

theorem TypedAlike.access {record : Expr} {label : String} (ih : TypedAlike c record) :
    TypedAlike c (.access record label) := by
  intro N e' Γ Γ' st h hΓ
  cases h with
  | access h =>
      rw [expr, expr]
      exact (ih h hΓ).bind fun ty st₁ _ => .refl _

section Runs

variable (hr : c.registry.WellFormed)
include hr

theorem expr_bounded {Γ : Env} {e : Expr} {st st' : InferState} {ty : Typing} (hΓ : Γ.Bounded st.next)
    (h : (expr c Γ e).start st = (.ok ty, st')) : ty.Bounded st.next st'.next :=
  (expr_tidy hr e (below_drawn st.next) hΓ.freeIn h).bounded

theorem ascribedOrFresh_bounded {ascription : Option TypeExpr} {t : Ty} {st st' : InferState}
    (h : (ascribedOrFresh c.registry ascription).start st = (.ok t, st')) :
    st.next ≤ st'.next ∧ t.Within (drawn st'.next) := by
  obtain ⟨hle, hnew, -⟩ := ascribedOrFresh_sound hr h
  exact ⟨hle, fun v hv => below_grow_empty v (hnew v hv)⟩

/-! ## Lists of expressions -/

theorem exprArgs_alike {N : Names} {es : List Expr} (ih : ∀ e ∈ es, TypedAlike c e) {es' : List Expr}
    (h : Expr.AlphaList N es es') {Γ Γ' : Env} :
    ∀ {ts : List Ty} {s : Subst} {st : InferState}, Γ.Paired N st.next Γ' →
      (∀ t ∈ ts, t.Within (drawn st.next)) → s.Bounded st.next →
      Together id st (exprArgs c Γ es ts s) (exprArgs c Γ' es' ts s) := by
  induction es generalizing es' with
  | nil =>
      intro ts s st _ _ _
      cases h
      cases ts <;> exact .refl _
  | cons e es ihes =>
      intro ts s st hΓ hts hs
      cases h with
      | cons he hes =>
          cases ts with
          | nil => exact .refl _
          | cons t ts =>
              obtain ⟨ht, hts⟩ := List.forall_mem_cons.mp hts
              rw [exprArgs, exprArgs]
              have hΓ₁ := hΓ.apply hs
              refine (ih e List.mem_cons_self he hΓ₁).bind fun xt st₁ hrun => ?_
              have hxt := expr_bounded hr hΓ₁.left hrun
              have hs₁ := hxt.subst.comp (hs.mono hxt.le)
              refine .bind_lift fun u hu => ?_
              have hu := Subst.Bounded.unify (hs₁.apply_within (ht.mono (drawn_mono hxt.le))) hxt.type hu
              exact ihes (fun q hq => ih q (List.mem_cons_of_mem e hq)) hes (hΓ.mono hxt.le)
                (fun t ht => (hts t ht).mono (drawn_mono hxt.le)) (hu.comp hs₁)

theorem exprList_alike {N : Names} {es : List Expr} (ih : ∀ e ∈ es, TypedAlike c e) {es' : List Expr}
    (h : Expr.AlphaList N es es') {Γ Γ' : Env} :
    ∀ {s : Subst} {st : InferState}, Γ.Paired N st.next Γ' → s.Bounded st.next →
      Together id st (exprList c Γ es s) (exprList c Γ' es' s) := by
  induction es generalizing es' with
  | nil =>
      intro s st _ _
      cases h
      exact .refl _
  | cons e es ihes =>
      intro s st hΓ hs
      cases h with
      | cons he hes =>
          rw [exprList, exprList]
          have hΓ₁ := hΓ.apply hs
          refine (ih e List.mem_cons_self he hΓ₁).bind fun xt st₁ hrun => ?_
          have hxt := expr_bounded hr hΓ₁.left hrun
          have hrest := ihes (fun q hq => ih q (List.mem_cons_of_mem e hq)) hes (hΓ.mono hxt.le)
            (hxt.subst.comp (hs.mono hxt.le))
          exact hrest.bind fun res st₂ _ => .refl _

theorem exprArms_alike {N : Names} {arms : List (Pattern × Expr)}
    (ih : ∀ arm ∈ arms, TypedAlike c arm.2) {arms' : List (Pattern × Expr)}
    (h : Expr.AlphaArms N arms arms') {Γ Γ' : Env} {a b : Ty} :
    ∀ {s : Subst} {st : InferState}, Γ.Paired N st.next Γ' → a.Within (drawn st.next) →
      b.Within (drawn st.next) → s.Bounded st.next →
      Together id st (exprArms c Γ a b arms s) (exprArms c Γ' a b arms' s) := by
  induction arms generalizing arms' with
  | nil =>
      intro s st _ _ _ _
      cases h
      exact .refl _
  | cons arm arms iharms =>
      intro s st hΓ ha hb hs
      cases h with
      | @cons _ p p' e e' _ arms' hpattern he harms =>
          rw [exprArms, exprArms]
          refine (Together.of_lockstep (pattern_relabel hpattern _)).bind fun pt st₁ hrun => ?_
          have hpt := pattern_tidy hr p (below_drawn st.next) (hs.apply_within ha) hrun
          have hle := hpt.threaded.le
          have hs₁ := (Subst.Bounded.of_threaded hpt.threaded).comp (hs.mono hle)
          have hbindings : ∀ b ∈ pt.bindings, b.2.Within (drawn st₁.next) := fun b hb =>
            (hpt.within b hb).mono (grow_subset_drawn (below_drawn _) hle)
          have hΓ₁ := (hΓ.next hle hs₁).bindPattern hpattern (pattern_binds p hrun) hbindings hs₁
          refine (ih (p, e) List.mem_cons_self he hΓ₁).bind fun bt st₂ hrun => ?_
          have hbt := expr_bounded hr hΓ₁.left hrun
          have hs₂ := hbt.subst.comp (hs₁.mono hbt.le)
          have hle₂ := Int.le_trans hle hbt.le
          refine .bind_lift fun u hu => ?_
          have hb₂ := hb.mono (drawn_mono hle₂)
          have hu := Subst.Bounded.unify (hs₂.apply_within hb₂) hbt.type hu
          exact iharms (fun q hq => ih q (List.mem_cons_of_mem _ hq)) harms (hΓ.mono hle₂)
            (ha.mono (drawn_mono hle₂)) hb₂ (hu.comp hs₂)

/-! ## Generalization -/

/-- The value of a `let` is typed by what it sees, so its type is generalized in the same way. -/
theorem letIn_generalize_eq {N : Names} {value value' : Expr} (ih : TypedAlike c value)
    (h : value.Alpha N value') {Γ Γ' : Env} {st st₁ st₂ : InferState} (hΓ : Γ.Paired N st.next Γ')
    {ascription : Option TypeExpr} {vt xt : Typing} (hv : (expr c Γ value).start st = (.ok vt, st₁))
    (hx : (ascribe c.registry ascription vt).start st₁ = (.ok xt, st₂)) :
    xt.Bounded st.next st₂.next ∧
      (Γ.apply xt.subst).generalize xt.type = (Γ'.apply xt.subst).generalize xt.type := by
  obtain ⟨Γ₀, hfree, hΓ₀⟩ := Env.exists_visible hΓ.left N
  have hself := Expr.Alpha.self value N.fixes_diagonal h
  have hv₀ := (ih hself hΓ₀).eq_ok hv
  have htidy := (ascribe_tidy hr (expr_tidy hr value (hΓ.left.below_visible N) hfree hv₀) hx).1
  exact ⟨htidy.bounded, hΓ.generalize_eq htidy.threaded htidy.within⟩

theorem letRec_generalize_eq {N : Names} {x y : String} {value value' : Expr} (ih : TypedAlike c value)
    (h : value.Alpha (N.bind x y) value') {Γ Γ' : Env} {st st₁ st₂ : InferState}
    (hΓ : Γ.Paired N st.next Γ') {ascription : Option TypeExpr} {self : Ty} {vt : Typing} {u : Subst}
    (hself : (ascribedOrFresh c.registry ascription).start st = (.ok self, st₁))
    (hv : (expr c (Γ.bindTy x self) value).start st₁ = (.ok vt, st₂))
    (hu : unify (vt.subst.apply self) vt.type = .ok u) :
    Typing.Bounded st.next st₂.next ⟨u.comp vt.subst, u.apply vt.type⟩ ∧
      (Γ.apply (u.comp vt.subst)).generalize (u.apply vt.type) =
        (Γ'.apply (u.comp vt.subst)).generalize (u.apply vt.type) := by
  obtain ⟨Γ₀, hfree, hΓ₀⟩ := Env.exists_visible hΓ.left N
  obtain ⟨hle, hnew, -⟩ := ascribedOrFresh_sound hr hself
  have hbelow := hΓ.left.below_visible N
  have hselfW : self.Within (grow (Env.visible N Γ) st.next st₁.next) :=
    hnew.mono (grow_subset (Set.empty_subset _) _ _)
  have hdrawn := (ascribedOrFresh_bounded hr hself).2
  have hv₀ := (ih (Expr.Alpha.self value (N.fixes_diagonal.bind x y) h)
    ((hΓ₀.mono hle).bindTy hdrawn x x)).eq_ok hv
  have hfree₁ := (hfree.mono (subset_grow _ st.next st₁.next)).bindTy hselfW x
  have hvt := expr_tidy hr value (hbelow.grow hle) hfree₁ hv₀
  -- the run of the value is counted from before its variable got a type
  have hs : vt.subst.Threaded (Env.visible N Γ) st.next st₂.next := .of_grow hbelow hle hvt.threaded
  have hself₂ := hs.apply_within (hselfW.mono (grow_mono_next _ _ hvt.threaded.le))
  have hvwithin := Subst.Threaded.scopeAfter_grow hle hvt.threaded ▸ hvt.within
  have hthr := hs.unify hself₂ hvwithin hu
  have htidy : Typing.Tidy (Env.visible N Γ) st.next st₂.next ⟨u.comp vt.subst, u.apply vt.type⟩ :=
    ⟨hs.comp hthr, hs.within_comp hthr hvwithin⟩
  exact ⟨htidy.bounded, hΓ.generalize_eq htidy.threaded htidy.within⟩

/-! ## Forms that change the environment -/

theorem TypedAlike.lam {param : String} {ascription : Option TypeExpr} {body : Expr} (ih : TypedAlike c body) :
    TypedAlike c (.lam param ascription body) := by
  intro N e' Γ Γ' st h hΓ
  cases h with
  | @lam _ _ y _ _ body' hbody =>
      rw [expr, expr]
      refine .bind_same fun dom st₁ hrun => ?_
      obtain ⟨hle, hdom⟩ := ascribedOrFresh_bounded hr hrun
      exact (ih hbody ((hΓ.mono hle).bindTy hdom param y)).bind fun bt st₂ _ => .refl _

theorem TypedAlike.app {fn arg : Expr} (ihf : TypedAlike c fn) (iha : TypedAlike c arg) :
    TypedAlike c (.app fn arg) := by
  intro N e' Γ Γ' st h hΓ
  cases h with
  | app hf ha =>
      rw [expr, expr]
      refine (ihf hf hΓ).bind fun ft st₁ hrun => ?_
      have hft := expr_bounded hr hΓ.left hrun
      exact (iha ha (hΓ.next hft.le hft.subst)).bind fun xt st₂ _ => .refl _

theorem TypedAlike.letIn {name : String} {ascription : Option TypeExpr} {value body : Expr}
    (ihv : TypedAlike c value) (ihb : TypedAlike c body) : TypedAlike c (.letIn name ascription value body) := by
  intro N e' Γ Γ' st h hΓ
  cases h with
  | @letIn _ _ y _ _ value' _ body' hv hb =>
      rw [expr, expr]
      refine (ihv hv hΓ).bind fun vt st₁ hrun => .bind_same fun xt st₂ hascribe => ?_
      obtain ⟨hxt, hgeneralize⟩ := letIn_generalize_eq hr ihv hv hΓ hrun hascribe
      dsimp only [id_eq]
      rw [hgeneralize]
      have hΓ₁ := (hΓ.next hxt.le hxt.subst).insert (.generalize hxt.type (Γ'.apply xt.subst)) name y
      exact (ihb hb hΓ₁).bind fun bt st₃ _ => .refl _

theorem TypedAlike.letRec {name : String} {ascription : Option TypeExpr} {value body : Expr}
    (ihv : TypedAlike c value) (ihb : TypedAlike c body) : TypedAlike c (.letRec name ascription value body) := by
  intro N e' Γ Γ' st h hΓ
  cases h with
  | @letRec _ _ y _ _ value' _ body' hv hb =>
      rw [expr, expr]
      refine .bind_same fun self st₁ hself => ?_
      obtain ⟨hle, hdom⟩ := ascribedOrFresh_bounded hr hself
      refine (ihv hv ((hΓ.mono hle).bindTy hdom name y)).bind fun vt st₂ hrun => ?_
      refine .bind_lift fun u hu => ?_
      obtain ⟨hxt, hgeneralize⟩ := letRec_generalize_eq hr ihv hv hΓ hself hrun hu
      dsimp only [id_eq]
      rw [hgeneralize]
      have hΓ₁ := (hΓ.next hxt.le hxt.subst).insert
        (.generalize hxt.type (Γ'.apply (u.comp vt.subst))) name y
      exact (ihb hb hΓ₁).bind fun bt st₃ _ => .refl _

theorem TypedAlike.ite {cond thenBranch elseBranch : Expr} (ihc : TypedAlike c cond)
    (iht : TypedAlike c thenBranch) (ihe : TypedAlike c elseBranch) :
    TypedAlike c (.ite cond thenBranch elseBranch) := by
  intro N e' Γ Γ' st h hΓ
  cases h with
  | ite hc ht he =>
      rw [expr, expr]
      refine (ihc hc hΓ).bind fun ct st₁ hrun => .bind_lift fun u hu => ?_
      have hct := expr_bounded hr hΓ.left hrun
      have hs₁ := (Subst.Bounded.unify hct.type (Ty.within_prim _ _) hu).comp hct.subst
      have hΓ₁ := hΓ.next hct.le hs₁
      refine (iht ht hΓ₁).bind fun tt st₂ hrun => ?_
      have htt := expr_bounded hr hΓ₁.left hrun
      have hs₂ := htt.subst.comp (hs₁.mono htt.le)
      exact (ihe he (hΓ.next (Int.le_trans hct.le htt.le) hs₂)).bind fun et st₃ _ => .refl _

theorem TypedAlike.binop {op : String} {left right : Expr} (ihl : TypedAlike c left) (ihr : TypedAlike c right) :
    TypedAlike c (.binop op left right) := by
  intro N e' Γ Γ' st h hΓ
  cases h with
  | binop hl hright =>
      rw [expr, expr]
      split
      · exact .refl _
      · refine (ihl hl hΓ).bind fun lt st₁ hrun => ?_
        have hlt := expr_bounded hr hΓ.left hrun
        exact (ihr hright (hΓ.next hlt.le hlt.subst)).bind fun rt st₂ _ => .refl _

theorem TypedAlike.construct {name : String} {args : List Expr} (ih : ∀ e ∈ args, TypedAlike c e) :
    TypedAlike c (.construct name args) := by
  intro N e' Γ Γ' st h hΓ
  cases h with
  | @construct _ _ _ args' hargs =>
      have hlength := hargs.length_eq
      rw [expr, expr, ← hlength]
      refine .bind_same fun con st₁ hrun => ?_
      obtain ⟨info, hinfo, -, rfl, rfl⟩ := start_saturated_ok.mp hrun
      have hbound : info.Bounded := hr.field_vars name info hinfo
      have hle := le_add_count st.next info.paramCount
      have hfields := fun t ht => (ConstructorInfo.within_fields hbound (drawn st.next) st.next t ht).mono
        (grow_subset_drawn (below_drawn _) hle)
      exact (exprArgs_alike hr ih hargs (hΓ.mono hle) hfields (.empty _)).bind fun s st₂ _ => .refl _

theorem TypedAlike.tuple {elems : List Expr} (ih : ∀ e ∈ elems, TypedAlike c e) : TypedAlike c (.tuple elems) := by
  intro N e' Γ Γ' st h hΓ
  cases h with
  | tuple helems =>
      rw [expr, expr]
      exact (exprList_alike hr ih helems hΓ (.empty _)).bind fun res st₁ _ => .refl _

theorem TypedAlike.record {fields : List (String × Expr)} (ih : ∀ f ∈ fields, TypedAlike c f.2) :
    TypedAlike c (.record fields) := by
  intro N e' Γ Γ' st h hΓ
  cases h with
  | record hlabels hfields =>
      rw [expr, expr, exprFields_eq, exprFields_eq, hlabels, map_eq_pure_bind, map_eq_pure_bind]
      refine Together.bind (f := id) ?_ fun res st₁ _ => .refl _
      refine Together.bind ?_ fun res st₁ _ => .refl _
      exact exprList_alike hr (List.forall_mem_map.mpr ih) hfields hΓ (.empty _)

theorem TypedAlike.range {first last : Expr} (ihf : TypedAlike c first) (ihl : TypedAlike c last) :
    TypedAlike c (.range first last) := by
  intro N e' Γ Γ' st h hΓ
  cases h with
  | range hf hl =>
      rw [expr, expr]
      refine (ihf hf hΓ).bind fun ft st₁ hrun => .bind_lift fun u hu => ?_
      have hft := expr_bounded hr hΓ.left hrun
      have hs := (Subst.Bounded.unify hft.type (Ty.within_prim _ _) hu).comp hft.subst
      exact (ihl hl (hΓ.next hft.le hs)).bind fun lt st₂ _ => .refl _

theorem TypedAlike.matchOn {scrutinee : Expr} {arms : List (Pattern × Expr)} (ihs : TypedAlike c scrutinee)
    (ih : ∀ arm ∈ arms, TypedAlike c arm.2) : TypedAlike c (.matchOn scrutinee arms) := by
  intro N e' Γ Γ' st h hΓ
  cases h with
  | matchOn hs harms =>
      rw [expr, expr, coverage_of_unnamed c harms.unnamed_eq]
      refine (ihs hs hΓ).bind fun vt st₁ hrun => .bind_same fun result st₂ hfresh => ?_
      have hvt := expr_bounded hr hΓ.left hrun
      have hfresh : (ascribedOrFresh c.registry none).start st₁ = (.ok result, st₂) := hfresh
      obtain ⟨hle, hresult⟩ := ascribedOrFresh_bounded hr hfresh
      have hrest := exprArms_alike hr ih harms (hΓ.mono (Int.le_trans hvt.le hle))
        (hvt.type.mono (drawn_mono hle)) hresult (hvt.subst.mono hle)
      exact hrest.bind fun s st₃ _ => .refl _

/-- Expressions that correspond are typed in the same way. -/
theorem expr_alike (e : Expr) : TypedAlike c e := by
  induction e with
  | lit l => exact .lit l
  | var name => exact .var name
  | lam param ascription body ih => exact .lam hr ih
  | app fn arg ihf iha => exact .app hr ihf iha
  | letIn name ascription value body ihv ihb => exact .letIn hr ihv ihb
  | letRec name ascription value body ihv ihb => exact .letRec hr ihv ihb
  | ite cond thenBranch elseBranch ihc iht ihe => exact .ite hr ihc iht ihe
  | binop op left right ihl ihr => exact .binop hr ihl ihr
  | construct name args ih => exact .construct hr ih
  | tuple elems ih => exact .tuple hr ih
  | proj tuple index ih => exact .proj ih
  | record fields ih => exact .record hr ih
  | access record label ih => exact .access ih
  | range first last ihf ihl => exact .range hr ihf ihl
  | matchOn scrutinee arms ihs ih => exact .matchOn hr ihs ih

end Runs

end Infer

/-! ## Programs -/

/-- **The names of bound variables do not matter.** Programs whose bodies are alpha-equivalent have the same
scheme and the same warnings, or fail for the same cause. -/
theorem typecheck_alpha (decls : List Decl) (options : Options) {e e' : Expr} (h : e.AlphaEq e') :
    SameOutcome SameFault id (typecheck ⟨decls, e⟩ options) (typecheck ⟨decls, e'⟩ options) := by
  cases hbuild : Registry.build decls with
  | error err =>
      rw [typecheck_of_build_error hbuild, typecheck_of_build_error hbuild]
      exact .error rfl
  | ok r =>
      refine typecheck_sameOutcome hbuild hbuild fun st => ?_
      exact Infer.expr_alike (Registry.build_wellFormed hbuild) e h (Env.Paired.empty st.next)

/-- The value of a binding has the name of the function's parameter, and both parts of a pair are called `y`. -/
def shadowing : Expr :=
  .lam "x" none (.letIn "x" none (.var "x")
    (.matchOn (.tuple [.var "x", .lit (.int 1)]) [(.tuple [.var "y", .var "y"], .var "y")]))

/-- The same without any name in use twice. -/
def unshadowing : Expr :=
  .lam "a" none (.letIn "b" none (.var "a")
    (.matchOn (.tuple [.var "b", .lit (.int 1)]) [(.tuple [.var "c", .var "d"], .var "d")]))

theorem typecheck_alpha_shadowing :
    shadowing.AlphaEq unshadowing ∧
      ∃ checked, typecheck ⟨[], shadowing⟩ = .ok checked ∧ typecheck ⟨[], unshadowing⟩ = .ok checked ∧
        checked.rendered = "forall t2. t2 -> Int" ∧ checked.warnings.map (·.missing) = [["_"]] := by
  have halpha : shadowing.AlphaEq unshadowing := by
    refine .lam (.letIn (.var (.inl ⟨rfl, rfl⟩)) (.matchOn (.tuple (.cons (.var ?_) ?_)) ?_))
    · exact .inl ⟨rfl, rfl⟩
    · exact .cons (.lit _ _) (.nil _)
    · exact .cons rfl (.var (.inl ⟨rfl, rfl⟩)) (.nil _)
  have hrun : (typecheck ⟨[], shadowing⟩).toOption.map
      (fun checked => (checked.rendered, checked.warnings.map (·.missing))) =
        some ("forall t2. t2 -> Int", [["_"]]) := by cbv
  obtain ⟨checked, hchecked, hfacts⟩ := Option.map_eq_some_iff.mp hrun
  obtain ⟨htext, hwarnings⟩ := Prod.mk.inj hfacts
  have hchecked := eq_ok_of_toOption hchecked
  exact ⟨halpha, checked, hchecked, (typecheck_alpha [] {} halpha).eq_ok hchecked, htext, hwarnings⟩

end Polytype
