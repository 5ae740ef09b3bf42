/-
# Polytype.Proofs.Inference.Steps — what inference does at each form of pattern and expression.

For every form there is one equivalence: the run succeeds exactly when the runs of its parts and the
unifications between them do, each from the state that the one before has left.  Soundness reads these
from left to right and completeness from right to left.  Where a run that fails matters too, `Congruence`
takes the place of this module; nothing after the two unfolds inference.
-/
import Polytype.Proofs.Run
import Polytype.Proofs.Settled
import Polytype.Typecheck

namespace Polytype

namespace Infer

variable {c : InferContext} {r : Registry} {Γ : Env} {st st' : InferState}

/-! ## Drawing variables -/

/-- The state in which `n` is the next variable. -/
def drawnTo (st : InferState) (n : TyVar) : InferState := { st with next := n }

@[simp]
theorem next_drawnTo (st : InferState) (n : TyVar) : (drawnTo st n).next = n := rfl

@[simp]
theorem warnings_drawnTo (st : InferState) (n : TyVar) : (drawnTo st n).warnings = st.warnings := rfl

theorem start_fresh (st : InferState) :
    fresh.start st = (.ok (.var st.next), drawnTo st (st.next + 1)) := rfl

theorem start_freshList (k : Nat) (st : InferState) :
    (freshList k).start st = (.ok (freshTys st.next k), drawnTo st (st.next + k)) := rfl

theorem start_instantiate (σ : Scheme) (st : InferState) :
    (instantiate σ).start st = (.ok (σ.instantiate st.next), drawnTo st (st.next + σ.arity)) := rfl

theorem start_instantiateConstructor (con : ConstructorInfo) (st : InferState) :
    (instantiateConstructor con).start st =
      (.ok (con.instantiate st.next), drawnTo st (st.next + con.paramCount)) := rfl

theorem start_ascribed (r : Registry) (e : TypeExpr) (st : InferState) :
    (ascribed r e).start st =
      ((Resolve.start (r.resolveAscription e) { next := st.next }).1,
        drawnTo st (Resolve.start (r.resolveAscription e) { next := st.next }).2.next) := rfl

theorem start_ascribed_ok {e : TypeExpr} {t : Ty} :
    (ascribed r e).start st = (.ok t, st') ↔
      ∃ sc, Resolve.start (r.resolveAscription e) { next := st.next } = (.ok t, sc) ∧
        drawnTo st sc.next = st' := by
  rw [start_ascribed]
  rcases Resolve.start (r.resolveAscription e) { next := st.next } with ⟨res, sc⟩
  simp

theorem start_ascribedOrFresh_ok {ascription : Option TypeExpr} {t : Ty} :
    (ascribedOrFresh r ascription).start st = (.ok t, st') ↔
      match ascription with
      | some e => (ascribed r e).start st = (.ok t, st')
      | none => .var st.next = t ∧ drawnTo st (st.next + 1) = st' := by
  cases ascription with
  | some e => rfl
  | none =>
      rw [ascribedOrFresh, start_fresh]
      simp

theorem start_saturated_ok {name : String} {count : Nat} {con : ConstructorInstance} :
    (saturated r name count).start st = (.ok con, st') ↔
      ∃ info, r.constructors[name]? = some info ∧ count = info.arity ∧
        info.instantiate st.next = con ∧ drawnTo st (st.next + info.paramCount) = st' := by
  rw [saturated, start_bind, start_lift, Registry.require]
  cases r.constructors[name]? with
  | none => simp
  | some info =>
      dsimp only
      by_cases hcount : count = info.arity
      · rw [if_neg (not_not.mpr hcount), start_instantiateConstructor]
        simp [hcount]
      · rw [if_pos hcount, start_bind, start_lift, Fault.raise]
        simp [hcount]

/-! ## First steps -/

section First

variable {α β : Type} {b : β}

theorem start_lift_bind {x : Except TypeError α} {f : α → Infer β} :
    ((liftM x : Infer α) >>= f).start st = (.ok b, st') ↔
      ∃ a, x = .ok a ∧ (f a).start st = (.ok b, st') := by
  rw [start_bind, start_lift]
  cases x with
  | error e => simp
  | ok a => simp

theorem exists_start_lift {x : Except TypeError α} {P : α → InferState → Prop} :
    (∃ a st₁, (liftM x : Infer α).start st = (.ok a, st₁) ∧ P a st₁) ↔ ∃ a, x = .ok a ∧ P a st := by
  constructor
  · rintro ⟨a, st₁, h, hP⟩
    obtain ⟨hx, rfl⟩ := start_lift_ok.mp h
    exact ⟨a, hx, hP⟩
  · rintro ⟨a, h, hP⟩
    exact ⟨a, st, start_lift_ok.mpr ⟨h, rfl⟩, hP⟩

theorem start_fresh_bind {f : Ty → Infer β} :
    (fresh >>= f).start st = (f (.var st.next)).start (drawnTo st (st.next + 1)) := by
  rw [start_bind, start_fresh]

theorem start_freshList_bind {k : Nat} {f : List Ty → Infer β} :
    (freshList k >>= f).start st = (f (freshTys st.next k)).start (drawnTo st (st.next + k)) := by
  rw [start_bind, start_freshList]

theorem start_instantiate_bind {σ : Scheme} {f : Ty → Infer β} :
    (instantiate σ >>= f).start st =
      (f (σ.instantiate st.next)).start (drawnTo st (st.next + σ.arity)) := by
  rw [start_bind, start_instantiate]

theorem start_saturated_bind {name : String} {count : Nat} {f : ConstructorInstance → Infer β} :
    (saturated r name count >>= f).start st = (.ok b, st') ↔
      ∃ info, r.constructors[name]? = some info ∧ count = info.arity ∧
        (f (info.instantiate st.next)).start (drawnTo st (st.next + info.paramCount)) =
          (.ok b, st') := by
  simp only [start_bind_ok, start_saturated_ok]
  constructor
  · rintro ⟨con, st₁, ⟨info, hinfo, hcount, rfl, rfl⟩, h⟩
    exact ⟨info, hinfo, hcount, h⟩
  · rintro ⟨info, hinfo, hcount, h⟩
    exact ⟨_, _, ⟨info, hinfo, hcount, rfl, rfl⟩, h⟩

end First

/-! ## Patterns -/

section Pattern

variable {t : Ty} {pt : PatternTyping}

-- The recursion over patterns is opened here and nowhere else.
attribute [local simp] pattern patternList patternFields

theorem start_pattern_int {n : Int} :
    (pattern r (.int n) t).start st = (.ok pt, st') ↔
      ∃ s, unify t .int = .ok s ∧ { subst := s } = pt ∧ st = st' := by
  simp only [pattern, start_lift_bind, start_pure_ok]

theorem start_pattern_bool {b : Bool} :
    (pattern r (.bool b) t).start st = (.ok pt, st') ↔
      ∃ s, unify t .bool = .ok s ∧ { subst := s } = pt ∧ st = st' := by
  simp only [pattern, start_lift_bind, start_pure_ok]

theorem start_pattern_con {name : String} {args : List Pattern} :
    (pattern r (.con name args) t).start st = (.ok pt, st') ↔
      ∃ info, r.constructors[name]? = some info ∧ args.length = info.arity ∧
        ∃ s, unify t (info.instantiate st.next).result = .ok s ∧
          (patternList r args (info.instantiate st.next).fields s).start
            (drawnTo st (st.next + info.paramCount)) = (.ok pt, st') := by
  simp only [pattern, start_saturated_bind, start_lift_bind]

theorem start_pattern_tuple {elems : List Pattern} :
    (pattern r (.tuple elems) t).start st = (.ok pt, st') ↔
      ∃ s, unify t (.tuple (freshTys st.next elems.length)) = .ok s ∧
        (patternList r elems (freshTys st.next elems.length) s).start
          (drawnTo st (st.next + elems.length)) = (.ok pt, st') := by
  simp only [pattern, start_freshList_bind, start_lift_bind]

theorem patternFields_eq (r : Registry) (fields : List (String × Pattern)) (ts : List Ty) (s : Subst) :
    patternFields r fields ts s = patternList r (fields.map Prod.snd) ts s := by
  induction fields generalizing ts s with
  | nil => cases ts <;> rfl
  | cons f fields ih =>
      cases ts with
      | nil => rfl
      | cons t ts => simp [ih]

theorem start_pattern_record {fields : List (String × Pattern)} :
    (pattern r (.record fields) t).start st = (.ok pt, st') ↔
      ∃ s ts st₁, (recordFields t (fields.map Prod.fst)).start st = (.ok (s, ts), st₁) ∧
        (patternList r (fields.map Prod.snd) ts s).start st₁ = (.ok pt, st') := by
  simp only [pattern, start_bind_ok, patternFields_eq, Prod.exists]
  rfl

theorem mem_of_lookup {known : List (String × Ty)} {label : String}
    (h : known.lookup label = some t) : (label, t) ∈ known := by
  obtain ⟨l₁, l₂, rfl, -⟩ := List.lookup_eq_some_iff.mp h
  simp

theorem fieldTypes_spec {known : List (String × Ty)} {labels : List String} {ts : List Ty}
    (h : fieldTypes known labels = .ok ts) :
    ts.length = labels.length ∧ ∀ g ∈ labels.zip ts, g ∈ known := by
  induction labels generalizing ts with
  | nil =>
      cases h
      simp
  | cons l ls ih =>
      rw [fieldTypes] at h
      split at h
      · cases h
      · next t ht =>
          simp only [bind_eq_ok_iff, pure_eq_ok_iff] at h
          obtain ⟨us, hus, rfl⟩ := h
          obtain ⟨hlen, hmem⟩ := ih hus
          refine ⟨by simp [hlen], ?_⟩
          rw [List.zip_cons_cons]
          exact List.forall_mem_cons.mpr ⟨mem_of_lookup ht, hmem⟩

/-- The fields that a record pattern names are those of a known record, or new ones. -/
theorem start_recordFields {labels : List String} {s : Subst} {ts : List Ty}
    (h : (recordFields t labels).start st = (.ok (s, ts), st')) :
    (∃ known, t = .record known ∧ fieldTypes known labels = .ok ts ∧ s = ∅ ∧ st' = st) ∨
      (ts = freshTys st.next labels.length ∧ unify t (.record (labels.zip ts)) = .ok s ∧
        st' = drawnTo st (st.next + labels.length)) := by
  unfold recordFields at h
  split at h
  · next known =>
      rw [start_lift_bind] at h
      obtain ⟨us, hus, h⟩ := h
      obtain ⟨hres, rfl⟩ := start_pure_ok.mp h
      cases hres
      exact Or.inl ⟨known, rfl, hus, rfl, rfl⟩
  · rw [start_freshList_bind, start_lift_bind] at h
    obtain ⟨u, hu, h⟩ := h
    obtain ⟨hres, rfl⟩ := start_pure_ok.mp h
    obtain ⟨rfl, rfl⟩ := Prod.mk.inj hres
    exact Or.inr ⟨rfl, hu, rfl⟩

theorem start_patternList_nil {ts : List Ty} {s : Subst} :
    (patternList r [] ts s).start st = (.ok pt, st') ↔ { subst := s } = pt ∧ st = st' := by
  cases ts <;> simp only [patternList, start_pure_ok]

theorem start_patternList_cons {p : Pattern} {ps : List Pattern} {ts : List Ty} {s : Subst} :
    (patternList r (p :: ps) (t :: ts) s).start st = (.ok pt, st') ↔
      ∃ here st₁ rest st₂, (pattern r p (s.apply t)).start st = (.ok here, st₁) ∧
        (patternList r ps ts (here.subst.comp s)).start st₁ = (.ok rest, st₂) ∧
        ⟨rest.subst, here.bindings ++ rest.bindings⟩ = pt ∧ st₂ = st' := by
  simp only [patternList, start_bind_ok, start_pure_ok]
  grind

end Pattern

/-! ## Expressions -/

section Expr

variable {ty : Typing} {s : Subst}

-- Likewise the recursion over expressions.
attribute [local simp] expr exprArgs exprList exprFields exprArms

theorem start_expr_var {name : String} :
    (expr c Γ (.var name)).start st = (.ok ty, st') ↔
      ∃ σ, Γ[name]? = some σ ∧ ⟨∅, σ.instantiate st.next⟩ = ty ∧
        drawnTo st (st.next + σ.arity) = st' := by
  have hlookup : ∀ σ, Γ.lookup name = .ok σ ↔ Γ[name]? = some σ := by
    intro σ
    rw [Env.lookup]
    cases Γ[name]? <;> simp
  simp only [expr, start_lift_bind, start_instantiate_bind, start_pure_ok, hlookup]

theorem start_expr_lam {param : String} {ascription : Option TypeExpr} {body : Expr} :
    (expr c Γ (.lam param ascription body)).start st = (.ok ty, st') ↔
      ∃ dom st₁, (ascribedOrFresh c.registry ascription).start st = (.ok dom, st₁) ∧
      ∃ bt st₂, (expr c (Γ.bindTy param dom) body).start st₁ = (.ok bt, st₂) ∧
        ⟨bt.subst, .fn (bt.subst.apply dom) bt.type⟩ = ty ∧ st₂ = st' := by
  simp only [expr, start_bind_ok, start_pure_ok]

theorem start_expr_app {fn arg : Expr} :
    (expr c Γ (.app fn arg)).start st = (.ok ty, st') ↔
      ∃ ft st₁, (expr c Γ fn).start st = (.ok ft, st₁) ∧
      ∃ xt st₂, (expr c (Γ.apply ft.subst) arg).start st₁ = (.ok xt, st₂) ∧
      ∃ u, unify (xt.subst.apply ft.type) (.fn xt.type (.var st₂.next)) = .ok u ∧
        ⟨u.comp (xt.subst.comp ft.subst), u.image st₂.next⟩ = ty ∧
        drawnTo st₂ (st₂.next + 1) = st' := by
  simp only [expr, start_fresh_bind, start_bind_ok, exists_start_lift, start_pure_ok, Subst.apply_var,
    Subst.comp_assoc]

theorem start_expr_letIn {name : String} {ascription : Option TypeExpr} {value body : Expr} :
    (expr c Γ (.letIn name ascription value body)).start st = (.ok ty, st') ↔
      ∃ vt st₁, (expr c Γ value).start st = (.ok vt, st₁) ∧
      ∃ at' st₂, (ascribe c.registry ascription vt).start st₁ = (.ok at', st₂) ∧
      ∃ bt st₃, (expr c ((Γ.apply at'.subst).insert name ((Γ.apply at'.subst).generalize at'.type))
          body).start st₂ = (.ok bt, st₃) ∧
        ⟨bt.subst.comp at'.subst, bt.type⟩ = ty ∧ st₃ = st' := by
  simp only [expr, start_bind_ok, start_pure_ok]

theorem start_expr_letRec {name : String} {ascription : Option TypeExpr} {value body : Expr} :
    (expr c Γ (.letRec name ascription value body)).start st = (.ok ty, st') ↔
      ∃ self st₁, (ascribedOrFresh c.registry ascription).start st = (.ok self, st₁) ∧
      ∃ vt st₂, (expr c (Γ.bindTy name self) value).start st₁ = (.ok vt, st₂) ∧
      ∃ u, unify (vt.subst.apply self) vt.type = .ok u ∧
      ∃ bt st₃, (expr c ((Γ.apply (u.comp vt.subst)).insert name
          ((Γ.apply (u.comp vt.subst)).generalize (u.apply vt.type))) body).start st₂ = (.ok bt, st₃) ∧
        ⟨bt.subst.comp (u.comp vt.subst), bt.type⟩ = ty ∧ st₃ = st' := by
  simp only [expr, start_bind_ok, exists_start_lift, start_pure_ok]

theorem start_expr_ite {cond thenBranch elseBranch : Expr} :
    (expr c Γ (.ite cond thenBranch elseBranch)).start st = (.ok ty, st') ↔
      ∃ ct st₁, (expr c Γ cond).start st = (.ok ct, st₁) ∧
      ∃ u₁, unify ct.type .bool = .ok u₁ ∧
      ∃ tt st₂, (expr c (Γ.apply (u₁.comp ct.subst)) thenBranch).start st₁ = (.ok tt, st₂) ∧
      ∃ et st₃, (expr c (Γ.apply (tt.subst.comp (u₁.comp ct.subst))) elseBranch).start st₂ =
        (.ok et, st₃) ∧
      ∃ u₂, unify (et.subst.apply tt.type) et.type = .ok u₂ ∧
        ⟨u₂.comp (et.subst.comp (tt.subst.comp (u₁.comp ct.subst))), u₂.apply et.type⟩ = ty ∧
        st₃ = st' := by
  simp only [expr, start_bind_ok, exists_start_lift, start_pure_ok]

theorem start_expr_binop {op : String} {left right : Expr} :
    (expr c Γ (.binop op left right)).start st = (.ok ty, st') ↔
      ∃ kind, operatorKind? op = some kind ∧
      ∃ lt st₁, (expr c Γ left).start st = (.ok lt, st₁) ∧
      ∃ rt st₂, (expr c (Γ.apply lt.subst) right).start st₁ = (.ok rt, st₂) ∧
      ∃ u, operands kind (rt.subst.apply lt.type) rt.type = .ok u ∧
        ⟨u.comp (rt.subst.comp lt.subst), resultType kind⟩ = ty ∧ st₂ = st' := by
  rw [expr]
  cases operatorKind? op with
  | none => simp [Fault.raise]
  | some kind => simp only [start_bind_ok, exists_start_lift, start_pure_ok,
      Option.some.injEq, exists_eq_left']

theorem start_expr_construct {name : String} {args : List Expr} :
    (expr c Γ (.construct name args)).start st = (.ok ty, st') ↔
      ∃ info, c.registry.constructors[name]? = some info ∧ args.length = info.arity ∧
      ∃ s st₁, (exprArgs c Γ args (info.instantiate st.next).fields ∅).start
          (drawnTo st (st.next + info.paramCount)) = (.ok s, st₁) ∧
        ⟨s, s.apply (info.instantiate st.next).result⟩ = ty ∧ st₁ = st' := by
  simp only [expr, start_saturated_bind]
  simp only [start_bind_ok, start_pure_ok]

theorem start_expr_tuple {elems : List Expr} :
    (expr c Γ (.tuple elems)).start st = (.ok ty, st') ↔
      ∃ s ts st₁, (exprList c Γ elems ∅).start st = (.ok (s, ts), st₁) ∧
        ⟨s, .tuple (ts.map s.apply)⟩ = ty ∧ st₁ = st' := by
  simp only [expr, start_bind_ok, start_pure_ok, Prod.exists]

theorem component_mem {t u : Ty} {index : Nat} (h : component t index = .ok u) :
    ∃ ts, t = .tuple ts ∧ ts[index]? = some u := by
  unfold component at h
  split at h
  · next ts =>
      split at h
      · next v hv =>
          cases h
          exact ⟨ts, rfl, hv⟩
      · cases h
  · cases h

theorem start_expr_proj {tuple : Expr} {index : Nat} :
    (expr c Γ (.proj tuple index)).start st = (.ok ty, st') ↔
      ∃ tt st₁, (expr c Γ tuple).start st = (.ok tt, st₁) ∧
      ∃ t, component (tt.subst.apply tt.type) index = .ok t ∧ ⟨tt.subst, t⟩ = ty ∧ st₁ = st' := by
  simp only [expr, start_bind_ok, exists_start_lift, start_pure_ok]

theorem exprFields_eq (c : InferContext) (Γ : Env) (fields : List (String × Expr)) (s : Subst) :
    exprFields c Γ fields s =
      (fun res => (res.1, (fields.map Prod.fst).zip res.2)) <$>
        exprList c Γ (fields.map Prod.snd) s := by
  induction fields generalizing s with
  | nil => simp
  | cons f fields ih => simp [ih]

theorem start_expr_record {fields : List (String × Expr)} :
    (expr c Γ (.record fields)).start st = (.ok ty, st') ↔
      ∃ s ts st₁, (exprList c Γ (fields.map Prod.snd) ∅).start st = (.ok (s, ts), st₁) ∧
        ⟨s, .record ((fields.map Prod.fst).zip (ts.map s.apply))⟩ = ty ∧ st₁ = st' := by
  simp only [expr, exprFields_eq, map_eq_pure_bind, start_bind_ok, start_pure_ok, Prod.exists]
  constructor
  · rintro ⟨s, fts, st₁, ⟨s', ts, st₂, h, hres, rfl⟩, rfl, rfl⟩
    cases hres
    refine ⟨s, ts, st₂, h, ?_, rfl⟩
    rw [List.zip_map_right]
    rfl
  · rintro ⟨s, ts, st₁, h, rfl, rfl⟩
    refine ⟨s, _, st₁, ⟨s, ts, st₁, h, rfl, rfl⟩, ?_, rfl⟩
    rw [List.zip_map_right]
    rfl

theorem field_mem {t u : Ty} {label : String} (h : field t label = .ok u) :
    ∃ fs, t = .record fs ∧ (label, u) ∈ fs := by
  unfold field at h
  split at h
  · next fs =>
      split at h
      · next v hv =>
          cases h
          exact ⟨fs, rfl, mem_of_lookup hv⟩
      · cases h
  · cases h

theorem start_expr_access {record : Expr} {label : String} :
    (expr c Γ (.access record label)).start st = (.ok ty, st') ↔
      ∃ rt st₁, (expr c Γ record).start st = (.ok rt, st₁) ∧
      ∃ t, field (rt.subst.apply rt.type) label = .ok t ∧ ⟨rt.subst, t⟩ = ty ∧ st₁ = st' := by
  simp only [expr, start_bind_ok, exists_start_lift, start_pure_ok]

theorem start_expr_range {first last : Expr} :
    (expr c Γ (.range first last)).start st = (.ok ty, st') ↔
      ∃ ft st₁, (expr c Γ first).start st = (.ok ft, st₁) ∧
      ∃ u₁, unify ft.type .int = .ok u₁ ∧
      ∃ lt st₂, (expr c (Γ.apply (u₁.comp ft.subst)) last).start st₁ = (.ok lt, st₂) ∧
      ∃ u₂, unify lt.type .int = .ok u₂ ∧
        ⟨u₂.comp (lt.subst.comp (u₁.comp ft.subst)), .range⟩ = ty ∧ st₂ = st' := by
  simp only [expr, start_bind_ok, exists_start_lift, start_pure_ok]

theorem start_expr_matchOn {scrutinee : Expr} {arms : List (Pattern × Expr)} :
    (expr c Γ (.matchOn scrutinee arms)).start st = (.ok ty, st') ↔
      ∃ vt st₁, (expr c Γ scrutinee).start st = (.ok vt, st₁) ∧
      ∃ s st₂, (exprArms c Γ vt.type (.var st₁.next) arms vt.subst).start
        (drawnTo st₁ (st₁.next + 1)) = (.ok s, st₂) ∧
      ∃ done st₃, (coverage c (arms.map Prod.fst)).start st₂ = (.ok done, st₃) ∧
        ⟨s, s.image st₁.next⟩ = ty ∧ st₃ = st' := by
  simp only [expr, start_fresh_bind, start_bind_ok, start_pure_ok, Subst.apply_var]

theorem start_ascribe_some {e : TypeExpr} {vt : Typing} :
    (ascribe r (some e) vt).start st = (.ok ty, st') ↔
      ∃ t st₁, (ascribed r e).start st = (.ok t, st₁) ∧
      ∃ u, unify vt.type t = .ok u ∧ ⟨u.comp vt.subst, u.apply vt.type⟩ = ty ∧ st₁ = st' := by
  simp only [ascribe, start_bind_ok, exists_start_lift, start_pure_ok]

theorem start_exprArgs_nil {ts : List Ty} {s' : Subst} :
    (exprArgs c Γ [] ts s).start st = (.ok s', st') ↔ s = s' ∧ st = st' := by
  cases ts <;> simp only [exprArgs, start_pure_ok]

theorem start_exprArgs_cons {e : Expr} {es : List Expr} {t : Ty} {ts : List Ty} {s' : Subst} :
    (exprArgs c Γ (e :: es) (t :: ts) s).start st = (.ok s', st') ↔
      ∃ xt st₁, (expr c (Γ.apply s) e).start st = (.ok xt, st₁) ∧
      ∃ u, unify ((xt.subst.comp s).apply t) xt.type = .ok u ∧
        (exprArgs c Γ es ts (u.comp (xt.subst.comp s))).start st₁ = (.ok s', st') := by
  simp only [exprArgs, start_bind_ok, exists_start_lift]

theorem start_exprList_nil {res : Subst × List Ty} :
    (exprList c Γ [] s).start st = (.ok res, st') ↔ (s, []) = res ∧ st = st' := by
  simp only [exprList, start_pure_ok]

theorem start_exprList_cons {e : Expr} {es : List Expr} {res : Subst × List Ty} :
    (exprList c Γ (e :: es) s).start st = (.ok res, st') ↔
      ∃ xt st₁, (expr c (Γ.apply s) e).start st = (.ok xt, st₁) ∧
      ∃ s' ts st₂, (exprList c Γ es (xt.subst.comp s)).start st₁ = (.ok (s', ts), st₂) ∧
        (s', xt.type :: ts) = res ∧ st₂ = st' := by
  simp only [exprList, start_bind_ok, start_pure_ok, Prod.exists]

theorem start_exprArms_nil {a b : Ty} {s' : Subst} :
    (exprArms c Γ a b [] s).start st = (.ok s', st') ↔ s = s' ∧ st = st' := by
  simp only [exprArms, start_pure_ok]

theorem start_exprArms_cons {a b : Ty} {p : Pattern} {e : Expr} {arms : List (Pattern × Expr)}
    {s' : Subst} :
    (exprArms c Γ a b ((p, e) :: arms) s).start st = (.ok s', st') ↔
      ∃ pt st₁, (pattern c.registry p (s.apply a)).start st = (.ok pt, st₁) ∧
      ∃ bt st₂, (expr c ((Γ.apply (pt.subst.comp s)).bindAll
          (pt.bindings.map fun b => (b.1, (pt.subst.comp s).apply b.2))) e).start st₁ = (.ok bt, st₂) ∧
      ∃ u, unify ((bt.subst.comp (pt.subst.comp s)).apply b) bt.type = .ok u ∧
        (exprArms c Γ a b arms (u.comp (bt.subst.comp (pt.subst.comp s)))).start st₂ =
          (.ok s', st') := by
  simp only [exprArms, start_bind_ok, exists_start_lift]

/-- The state with the warning about a match, if there is something to warn about. -/
def warned (st : InferState) (missing : List String) : InferState :=
  if missing.isEmpty then st
  else { st with warnings := st.warnings ++ [.nonExhaustiveMatch missing] }

theorem start_coverage (c : InferContext) (ps : List Pattern) (st : InferState) :
    (coverage c ps).start st =
      if c.checkCoverage then
        match Coverage.missingCases c.registry ps with
        | .ok missing => (.ok (), warned st missing)
        | .error e => (.error e, st)
      else (.ok (), st) := by
  rw [coverage]
  split
  · rw [start_bind, start_lift]
    cases Coverage.missingCases c.registry ps with
    | error e => rfl
    | ok missing =>
        dsimp only
        unfold warned
        split <;> rfl
  · rfl

/-- The coverage check draws nothing. -/
theorem next_start_coverage (c : InferContext) (ps : List Pattern) (st : InferState) :
    ((coverage c ps).start st).2.next = st.next := by
  rw [start_coverage]
  split
  · split
    · unfold warned
      split <;> rfl
    · rfl
  · rfl

theorem next_coverage {ps : List Pattern} {done : Unit}
    (h : (coverage c ps).start st = (.ok done, st')) : st'.next = st.next := by
  rw [← next_start_coverage c ps st, h]

end Expr

end Infer

/-! ## Programs -/

theorem typecheck_ok {p : Program} {options : Options} {checked : Checked} :
    typecheck p options = .ok checked ↔
      ∃ r, Registry.build p.decls = .ok r ∧
      ∃ ty st, (Infer.expr { registry := r, checkCoverage := options.checkCoverage } ∅ p.body).start {} =
          (.ok ty, st) ∧
        { scheme := Env.generalize ∅ (ty.subst.apply ty.type)
          warnings := st.warnings
          colorOutput := options.colorOutput } = checked := by
  rw [typecheck, bind_eq_ok_iff]
  refine exists_congr fun r => and_congr_right fun _ => ?_
  rcases hrun : (Infer.expr { registry := r, checkCoverage := options.checkCoverage } ∅ p.body).start {}
    with ⟨_ | ty, st⟩
  · simp [hrun, bind, Except.bind]
  · simp [hrun, bind, Except.bind, pure, Except.pure]

theorem typecheck_of_build_error {p : Program} {e : TypeError} (hbuild : Registry.build p.decls = .error e)
    (options : Options) : typecheck p options = .error e := by
  rw [typecheck, hbuild]
  rfl

theorem typecheck_of_expr_error {p : Program} {options : Options} {e : TypeError} {r : Registry}
    {st : InferState} (hbuild : Registry.build p.decls = .ok r)
    (hrun : (Infer.expr { registry := r, checkCoverage := options.checkCoverage } ∅ p.body).start {} =
      (.error e, st)) : typecheck p options = .error e := by
  rw [typecheck, hbuild]
  simp [hrun, bind, Except.bind]

end Polytype
