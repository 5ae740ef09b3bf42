/-
# Polytype.Proofs.Inference.Lockstep — two runs of inference side by side.

Two computations go in *lockstep* (`Lockstep`) when from corresponding states they have the same outcome
and leave corresponding states.  Here the states differ in the number of the next variable, by `d`, and the
results differ in the numbers of their variables, by the same `d`.

The two runs may also be about different expressions and different declarations, as far as inference cannot
tell: the declarations have the same constructors, and the expressions differ in their ascriptions only.  If
corresponding ascriptions are read in lockstep, then so are the expressions (`expr_lockstep`, with a lemma for each
form of expression under `OnExpr`).
-/
import Polytype.Proofs.Inference.Congruence
import Polytype.Proofs.Shift

namespace Polytype

/-! ## Expressions up to their ascriptions -/

namespace Expr

mutual
/-- The types that an expression ascribes to its variables. -/
def ascriptions : Expr → List TypeExpr
  | .lit _ => []
  | .var _ => []
  | .lam _ ascribed body => ascribed.toList ++ ascriptions body
  | .app fn arg => ascriptions fn ++ ascriptions arg
  | .letIn _ ascribed value body => ascribed.toList ++ (ascriptions value ++ ascriptions body)
  | .letRec _ ascribed value body => ascribed.toList ++ (ascriptions value ++ ascriptions body)
  | .ite c t e => ascriptions c ++ (ascriptions t ++ ascriptions e)
  | .binop _ left right => ascriptions left ++ ascriptions right
  | .construct _ args => ascriptionsList args
  | .tuple elems => ascriptionsList elems
  | .proj e _ => ascriptions e
  | .record fields => ascriptionsFields fields
  | .access e _ => ascriptions e
  | .range first last => ascriptions first ++ ascriptions last
  | .matchOn scrutinee arms => ascriptions scrutinee ++ ascriptionsArms arms
/-- The ascriptions of a list of expressions. -/
def ascriptionsList : List Expr → List TypeExpr
  | [] => []
  | e :: es => ascriptions e ++ ascriptionsList es
/-- The ascriptions in the fields of a record. -/
def ascriptionsFields : List (String × Expr) → List TypeExpr
  | [] => []
  | (_, e) :: fields => ascriptions e ++ ascriptionsFields fields
/-- The ascriptions in the bodies of arms. -/
def ascriptionsArms : List (Pattern × Expr) → List TypeExpr
  | [] => []
  | (_, e) :: arms => ascriptions e ++ ascriptionsArms arms
end

mutual
/-- Rewrites every ascription of an expression. -/
def mapAscriptions (h : TypeExpr → TypeExpr) : Expr → Expr
  | .lit l => .lit l
  | .var name => .var name
  | .lam param ascribed body => .lam param (ascribed.map h) (mapAscriptions h body)
  | .app fn arg => .app (mapAscriptions h fn) (mapAscriptions h arg)
  | .letIn name ascribed value body =>
    .letIn name (ascribed.map h) (mapAscriptions h value) (mapAscriptions h body)
  | .letRec name ascribed value body =>
    .letRec name (ascribed.map h) (mapAscriptions h value) (mapAscriptions h body)
  | .ite c t e => .ite (mapAscriptions h c) (mapAscriptions h t) (mapAscriptions h e)
  | .binop op left right => .binop op (mapAscriptions h left) (mapAscriptions h right)
  | .construct name args => .construct name (mapAscriptionsList h args)
  | .tuple elems => .tuple (mapAscriptionsList h elems)
  | .proj e index => .proj (mapAscriptions h e) index
  | .record fields => .record (mapAscriptionsFields h fields)
  | .access e field => .access (mapAscriptions h e) field
  | .range first last => .range (mapAscriptions h first) (mapAscriptions h last)
  | .matchOn scrutinee arms => .matchOn (mapAscriptions h scrutinee) (mapAscriptionsArms h arms)
/-- Rewrites the ascriptions of a list of expressions. -/
def mapAscriptionsList (h : TypeExpr → TypeExpr) : List Expr → List Expr
  | [] => []
  | e :: es => mapAscriptions h e :: mapAscriptionsList h es
/-- Rewrites the ascriptions in the fields of a record. -/
def mapAscriptionsFields (h : TypeExpr → TypeExpr) : List (String × Expr) → List (String × Expr)
  | [] => []
  | (l, e) :: fields => (l, mapAscriptions h e) :: mapAscriptionsFields h fields
/-- Rewrites the ascriptions in the bodies of arms. -/
def mapAscriptionsArms (h : TypeExpr → TypeExpr) : List (Pattern × Expr) → List (Pattern × Expr)
  | [] => []
  | (p, e) :: arms => (p, mapAscriptions h e) :: mapAscriptionsArms h arms
end

variable (h : TypeExpr → TypeExpr)

theorem mem_ascriptionsList {t : TypeExpr} {es : List Expr} :
    t ∈ ascriptionsList es ↔ ∃ e ∈ es, t ∈ e.ascriptions := by
  induction es with
  | nil => simp [ascriptionsList]
  | cons e es ih => simp [ascriptionsList, ih]

theorem ascriptionsFields_eq (fields : List (String × Expr)) :
    ascriptionsFields fields = ascriptionsList (fields.map Prod.snd) := by
  induction fields with
  | nil => rfl
  | cons f fields ih => rw [ascriptionsFields, ih, List.map_cons, ascriptionsList]

theorem ascriptionsArms_eq (arms : List (Pattern × Expr)) :
    ascriptionsArms arms = ascriptionsList (arms.map Prod.snd) := by
  induction arms with
  | nil => rfl
  | cons arm arms ih => rw [ascriptionsArms, ih, List.map_cons, ascriptionsList]

theorem mapAscriptionsList_eq (es : List Expr) :
    mapAscriptionsList h es = es.map (mapAscriptions h) := by
  induction es with
  | nil => rfl
  | cons e es ih => rw [mapAscriptionsList, ih, List.map_cons]

theorem mapAscriptionsFields_eq (fields : List (String × Expr)) :
    mapAscriptionsFields h fields = fields.map fun f => (f.1, mapAscriptions h f.2) := by
  induction fields with
  | nil => rfl
  | cons f fields ih => rw [mapAscriptionsFields, ih, List.map_cons]

theorem mapAscriptionsArms_eq (arms : List (Pattern × Expr)) :
    mapAscriptionsArms h arms = arms.map fun arm => (arm.1, mapAscriptions h arm.2) := by
  induction arms with
  | nil => rfl
  | cons arm arms ih => rw [mapAscriptionsArms, ih, List.map_cons]

end Expr

/-! ## Coverage goes by the constructors -/

namespace Coverage

variable {r r' : Registry}

theorem require_congr (h : r'.constructors = r.constructors) (name : String) :
    r'.require name = r.require name := by
  rw [Registry.require, Registry.require, Registry.constructorNames, Registry.constructorNames, h]

theorem requireKnown_congr (h : r'.constructors = r.constructors) (ps : List Pattern) :
    requireKnown r' ps = requireKnown r ps := by
  induction ps with
  | nil => rfl
  | cons p ps ih => cases p <;> simp only [requireKnown, require_congr h, ih]

theorem constructorCheck_congr (h : r'.constructors = r.constructors) {ps : List Pattern} {d : String}
    (ih : ∀ i, gaps r' (column d i ps) = gaps r (column d i ps)) :
    constructorCheck r' ps d = constructorCheck r ps d := by
  simp only [constructorCheck, require_congr h, ih]

theorem gaps_congr (h : r'.constructors = r.constructors) (ps : List Pattern) :
    gaps r' ps = gaps r ps := by
  -- by size, since the check goes on with columns, which are no parts of the list
  induction hn : Pattern.sizeList ps using Nat.strongRecOn generalizing ps with
  | ind n ih =>
      cases hirr : ps.any Pattern.isIrrefutable with
      | true => rw [gaps_of_irrefutable hirr, gaps_of_irrefutable hirr]
      | false =>
          cases ps with
          | nil => rw [gaps, gaps]
          | cons p ps =>
              cases p with
              | con c args =>
                  have hcheck : ∀ d, constructorCheck r' (.con c args :: ps) d =
                      constructorCheck r (.con c args :: ps) d := fun d =>
                    constructorCheck_congr h fun i =>
                      ih _ (hn ▸ sizeList_column_lt d i (List.cons_ne_nil _ _)) _ rfl
                  rw [gaps_con hirr, gaps_con hirr, require_congr h, requireKnown_congr h, funext hcheck]
              | _ => rw [gaps.eq_def, gaps.eq_def]

theorem missingCases_congr (h : r'.constructors = r.constructors) (ps : List Pattern) :
    missingCases r' ps = missingCases r ps := by
  rw [missingCases, missingCases, gaps_congr h]

end Coverage

/-! ## Lockstep -/

section Lockstep

variable {σ α β γ δ : Type}

/-- From corresponding states the two computations have the same outcome, with corresponding results, and
leave corresponding states. -/
def Lockstep (E : TypeError → TypeError → Prop) (φ : σ → σ) (f : α → β)
    (x : ExceptT TypeError (StateM σ) α) (y : ExceptT TypeError (StateM σ) β) : Prop :=
  ∀ st, SameOutcome E f (x.run.run st).1 (y.run.run (φ st)).1 ∧
    (y.run.run (φ st)).2 = φ (x.run.run st).2

namespace Lockstep

variable {E : TypeError → TypeError → Prop} {φ : σ → σ} {f : α → β} {g : γ → δ}
  {x : ExceptT TypeError (StateM σ) α} {y : ExceptT TypeError (StateM σ) β}

theorem pure {a : α} {b : β} (h : b = f a) : Lockstep E φ f (Pure.pure a) (Pure.pure b) :=
  fun _ => ⟨.ok_of_eq h, rfl⟩

theorem lift {x : Except TypeError α} {y : Except TypeError β} (h : SameOutcome E f x y) :
    Lockstep E φ f (liftM x) (liftM y) :=
  fun _ => ⟨h, rfl⟩

theorem refl (hE : ∀ e, E e e) (x : ExceptT TypeError (StateM σ) α) : Lockstep E id id x x :=
  fun _ => ⟨.refl fun e _ => hE e, rfl⟩

theorem bind {k : α → ExceptT TypeError (StateM σ) γ} {k' : β → ExceptT TypeError (StateM σ) δ}
    (hxy : Lockstep E φ f x y)
    (hk : ∀ a, (∃ st st', x.run.run st = (.ok a, st')) → Lockstep E φ g (k a) (k' (f a))) :
    Lockstep E φ g (x >>= k) (y >>= k') := by
  intro st
  obtain ⟨hres, hst⟩ := hxy st
  simp only [ExceptT.run_bind, StateT.run_bind]
  rcases hx : x.run.run st with ⟨res, st₁⟩
  rcases hy : y.run.run (φ st) with ⟨res', st₁'⟩
  rw [hx, hy] at hres hst
  subst hst
  cases hres with
  | ok a => exact hk a ⟨st, st₁, hx⟩ st₁
  | error h => exact ⟨.error h, rfl⟩

theorem map {h : α → γ} {h' : β → δ} (hxy : Lockstep E φ f x y) (hh : ∀ a, h' (f a) = g (h a)) :
    Lockstep E φ g (h <$> x) (h' <$> y) := by
  rw [map_eq_pure_bind, map_eq_pure_bind]
  exact hxy.bind fun a _ => .pure (hh a)

end Lockstep

end Lockstep

/-! ## The operations of inference -/

/-- The state whose next variable is `d` further on. -/
def InferState.shift (d : TyVar) (st : InferState) : InferState := { st with next := st.next + d }

/-- Adds `d` to every variable that stands for a name, and to the next one. -/
def NamedVars.shift (d : TyVar) (sc : NamedVars) : NamedVars where
  vars := sc.vars.map fun _ v => v + d
  next := sc.next + d

/-- Adds `d` to every variable of a typing. -/
def Typing.shift (d : TyVar) (ty : Typing) : Typing := ⟨ty.subst.shift d, ty.type.shift d⟩

/-- Adds `d` to every variable of a typing of a pattern. -/
def PatternTyping.shift (d : TyVar) (pt : PatternTyping) : PatternTyping :=
  ⟨pt.subst.shift d, pt.bindings.map fun b => (b.1, b.2.shift d)⟩

@[simp]
theorem Typing.shift_subst (d : TyVar) (ty : Typing) : (ty.shift d).subst = ty.subst.shift d := rfl

@[simp]
theorem Typing.shift_type (d : TyVar) (ty : Typing) : (ty.shift d).type = ty.type.shift d := rfl

@[simp]
theorem PatternTyping.shift_subst (d : TyVar) (pt : PatternTyping) :
    (pt.shift d).subst = pt.subst.shift d := rfl

@[simp]
theorem PatternTyping.shift_bindings (d : TyVar) (pt : PatternTyping) :
    (pt.shift d).bindings = pt.bindings.map fun b => (b.1, b.2.shift d) := rfl

namespace Infer

/-- Inference cannot tell the two registries apart: they have the same constructors.  Errors correspond
at least when their variables differ by `d`. -/
structure Alike (E : TypeError → TypeError → Prop) (d : TyVar) (r r' : Registry) : Prop where
  errors : ∀ e, E e (e.shift d)
  constructors_eq : r'.constructors = r.constructors
  bounded : ∀ (name : String) (c : ConstructorInfo), r.constructors[name]? = some c → c.Bounded

/-- The ascription and the rewritten one are read in lockstep. -/
def ReadAlike (E : TypeError → TypeError → Prop) (d : TyVar) (r r' : Registry)
    (h : TypeExpr → TypeExpr) (t : TypeExpr) : Prop :=
  Lockstep E (InferState.shift d) (Ty.shift d) (ascribed r t) (ascribed r' (h t))

namespace Alike

variable {E : TypeError → TypeError → Prop} {d : TyVar} {r r' : Registry} {h : TypeExpr → TypeExpr}

theorem freshBlock (k : Nat) : Lockstep E (InferState.shift d) (· + d) (freshBlock k) (freshBlock k) :=
  fun st => ⟨.ok st.next, congrArg (fun n => { st with next := n }) (Int.add_right_comm st.next d k)⟩

theorem fresh : Lockstep E (InferState.shift d) (Ty.shift d) fresh fresh :=
  (freshBlock 1).bind fun _ _ => .pure rfl

theorem freshList (k : Nat) :
    Lockstep E (InferState.shift d) (List.map (Ty.shift d)) (freshList k) (freshList k) :=
  (freshBlock k).bind fun n _ => .pure (Ty.map_shift_freshTys n k).symm

theorem instantiate (σ : Scheme) :
    Lockstep E (InferState.shift d) (Ty.shift d) (instantiate σ) (instantiate (σ.shift d)) := by
  rw [Infer.instantiate, Infer.instantiate, σ.arity_shift]
  exact (freshBlock σ.arity).bind fun n _ => .pure (σ.shift_instantiate n).symm

theorem ascribedOrFresh {ascription : Option TypeExpr}
    (hread : ∀ t ∈ ascription, ReadAlike E d r r' h t) :
    Lockstep E (InferState.shift d) (Ty.shift d) (ascribedOrFresh r ascription)
      (ascribedOrFresh r' (ascription.map h)) := by
  cases ascription with
  | none => exact fresh
  | some t => exact hread t rfl

section Operations

variable (hr : Alike E d r r')
include hr

theorem unify {a b a' b' : Ty} (ha : a' = a.shift d) (hb : b' = b.shift d) :
    Lockstep E (InferState.shift d) (Subst.shift d) (liftM (unify a b)) (liftM (unify a' b')) :=
  .lift (unify_shift hr.errors ha hb)

theorem saturated (name : String) (count : Nat) :
    Lockstep E (InferState.shift d) (ConstructorInstance.shift d) (saturated r name count)
      (saturated r' name count) := by
  have hrequire : SameOutcome E id (r.require name) (r'.require name) := by
    rw [Coverage.require_congr hr.constructors_eq, Registry.require]
    split
    · exact .ok _
    · exact .error (hr.errors _)
  refine Lockstep.bind (Lockstep.lift hrequire) ?_
  rintro c ⟨st, st', hc⟩
  have hinst : Lockstep E (InferState.shift d) (ConstructorInstance.shift d)
      (instantiateConstructor c) (instantiateConstructor c) := by
    have hbounded := hr.bounded name c (Coverage.require_ok.mp (start_lift_ok.mp hc).1)
    exact (freshBlock c.paramCount).bind fun n _ => .pure (hbounded.shift_instantiate d n).symm
  dsimp only [id_eq]
  split
  · refine Lockstep.bind (Lockstep.lift (f := id) ?_) fun _ _ => hinst
    exact .error (hr.errors _)
  · exact hinst

theorem recordFields {t t' : Ty} (ht : t' = t.shift d) (labels : List String) :
    Lockstep E (InferState.shift d) (Prod.map (Subst.shift d) (List.map (Ty.shift d)))
      (recordFields t labels) (recordFields t' labels) := by
  subst ht
  cases t with
  | record known =>
      rw [Ty.shift_record, Infer.recordFields, Infer.recordFields]
      refine Lockstep.bind (Lockstep.lift (fieldTypes_shift hr.errors known labels)) fun ts _ => ?_
      exact .pure (by simp)
  | _ =>
      refine Lockstep.bind (freshList _) fun ts _ => ?_
      refine Lockstep.bind (hr.unify rfl (by simp [List.zip_map_right])) fun s _ => ?_
      exact .pure rfl

theorem ascribe {ascription : Option TypeExpr} (hread : ∀ t ∈ ascription, ReadAlike E d r r' h t)
    (ty : Typing) :
    Lockstep E (InferState.shift d) (Typing.shift d) (ascribe r ascription ty)
      (ascribe r' (ascription.map h) (ty.shift d)) := by
  cases ascription with
  | none => exact .pure rfl
  | some t =>
      refine Lockstep.bind (hread t rfl) fun t _ => Lockstep.bind (hr.unify rfl rfl) fun s _ => ?_
      exact .pure (by simp [Typing.shift])

theorem coverage (b : Bool) {ps : List Pattern} (hps : Coverage.AllKnown r ps) :
    Lockstep E (InferState.shift d) id (coverage ⟨r, b⟩ ps) (coverage ⟨r', b⟩ ps) := by
  intro st
  -- known patterns have a list of missing cases, and it is the same for both registries
  obtain ⟨missing, hmissing⟩ := Coverage.missingCases_total hps
  have hrun : ∀ r st, Coverage.missingCases r ps = .ok missing →
      (Infer.coverage ⟨r, b⟩ ps).start st = (.ok (), if b then warned st missing else st) := by
    intro r st h
    rw [start_coverage]
    simp only [h]
    split <;> rfl
  have hwarned : warned (st.shift d) missing = (warned st missing).shift d := by
    unfold warned
    split <;> rfl
  have hrun' := hrun r' (st.shift d) (Coverage.missingCases_congr hr.constructors_eq ps ▸ hmissing)
  show SameOutcome E id ((Infer.coverage ⟨r, b⟩ ps).start st).1
      ((Infer.coverage ⟨r', b⟩ ps).start (st.shift d)).1 ∧
    ((Infer.coverage ⟨r', b⟩ ps).start (st.shift d)).2 =
      ((Infer.coverage ⟨r, b⟩ ps).start st).2.shift d
  rw [hrun r st hmissing, hrun']
  cases b with
  | false => exact ⟨.ok (), rfl⟩
  | true => exact ⟨.ok (), hwarned⟩

end Operations

/-! ## Patterns -/

theorem patternList {ps : List Pattern}
    (ih : ∀ p ∈ ps, ∀ {t t' : Ty}, t' = t.shift d →
      Lockstep E (InferState.shift d) (PatternTyping.shift d) (pattern r p t) (pattern r' p t')) :
    ∀ {ts ts' : List Ty} {s s' : Subst}, ts' = ts.map (Ty.shift d) → s' = s.shift d →
      Lockstep E (InferState.shift d) (PatternTyping.shift d) (patternList r ps ts s)
        (patternList r' ps ts' s') := by
  induction ps with
  | nil =>
      rintro ts - s - rfl rfl
      cases ts <;> exact .pure rfl
  | cons p ps ihps =>
      rintro ts - s - rfl rfl
      cases ts with
      | nil => exact .pure rfl
      | cons t ts =>
          rw [List.map_cons, Infer.patternList, Infer.patternList]
          refine Lockstep.bind (ih p List.mem_cons_self (by simp)) fun here _ => ?_
          have ih' := fun q hq => @ih q (List.mem_cons_of_mem p hq)
          exact Lockstep.bind (ihps ih' rfl (by simp)) fun rest _ => .pure (by simp [PatternTyping.shift])

theorem pattern (hr : Alike E d r r') (p : Pattern) : ∀ {t t' : Ty}, t' = t.shift d →
    Lockstep E (InferState.shift d) (PatternTyping.shift d) (pattern r p t) (pattern r' p t') := by
  induction p with
  | wildcard => exact fun _ => .pure (by simp [PatternTyping.shift])
  | var name =>
      rintro t - rfl
      exact .pure (by simp [PatternTyping.shift])
  | int n => exact fun ht => Lockstep.bind (hr.unify ht rfl) fun s _ => .pure rfl
  | bool b => exact fun ht => Lockstep.bind (hr.unify ht rfl) fun s _ => .pure rfl
  | con name args ih =>
      intro t t' ht
      rw [Infer.pattern, Infer.pattern]
      refine Lockstep.bind (hr.saturated _ _) fun con _ => ?_
      exact Lockstep.bind (hr.unify ht rfl) fun s _ => patternList ih rfl rfl
  | tuple elems ih =>
      intro t t' ht
      rw [Infer.pattern, Infer.pattern]
      refine Lockstep.bind (freshList _) fun ts _ => ?_
      exact Lockstep.bind (hr.unify ht (by simp)) fun s _ => patternList ih rfl rfl
  | record fields ih =>
      intro t t' ht
      rw [Infer.pattern, Infer.pattern]
      refine Lockstep.bind (hr.recordFields ht _) fun res _ => ?_
      simp only [patternFields_eq]
      exact patternList (List.forall_mem_map.mpr ih) rfl rfl

/-! ## Expressions -/

/-- The runs on the expression go in lockstep. -/
def OnExpr (E : TypeError → TypeError → Prop) (d : TyVar) (r r' : Registry) (h : TypeExpr → TypeExpr)
    (b : Bool) (e : Expr) : Prop :=
  ∀ {Γ Γ' : Env}, Γ' = Γ.shift d →
    Lockstep E (InferState.shift d) (Typing.shift d) (expr ⟨r, b⟩ Γ e)
      (expr ⟨r', b⟩ Γ' (e.mapAscriptions h))

variable {b : Bool}

theorem exprArgs (hr : Alike E d r r') {es : List Expr} (ih : ∀ e ∈ es, OnExpr E d r r' h b e)
    (Γ : Env) : ∀ {ts ts' : List Ty} {s s' : Subst}, ts' = ts.map (Ty.shift d) → s' = s.shift d →
      Lockstep E (InferState.shift d) (Subst.shift d) (exprArgs ⟨r, b⟩ Γ es ts s)
        (exprArgs ⟨r', b⟩ (Γ.shift d) (es.map (Expr.mapAscriptions h)) ts' s') := by
  induction es with
  | nil =>
      rintro ts - s - rfl rfl
      cases ts <;> exact .pure rfl
  | cons e es ihes =>
      rintro ts - s - rfl rfl
      cases ts with
      | nil => exact .pure rfl
      | cons t ts =>
          rw [List.map_cons, List.map_cons, Infer.exprArgs, Infer.exprArgs]
          refine Lockstep.bind (ih e List.mem_cons_self (by simp)) fun arg _ => ?_
          refine Lockstep.bind (hr.unify (by simp) rfl) fun u _ => ?_
          exact ihes (fun q hq => ih q (List.mem_cons_of_mem e hq)) rfl (by simp)

theorem exprList {es : List Expr} (ih : ∀ e ∈ es, OnExpr E d r r' h b e) (Γ : Env) :
    ∀ {s s' : Subst}, s' = s.shift d →
      Lockstep E (InferState.shift d) (Prod.map (Subst.shift d) (List.map (Ty.shift d)))
        (exprList ⟨r, b⟩ Γ es s)
        (exprList ⟨r', b⟩ (Γ.shift d) (es.map (Expr.mapAscriptions h)) s') := by
  induction es with
  | nil =>
      rintro s - rfl
      exact .pure rfl
  | cons e es ihes =>
      rintro s - rfl
      rw [List.map_cons, Infer.exprList, Infer.exprList]
      refine Lockstep.bind (ih e List.mem_cons_self (by simp)) fun elem _ => ?_
      have ih' := fun q hq => @ih q (List.mem_cons_of_mem e hq)
      exact Lockstep.bind (ihes ih' (by simp)) fun _ _ => .pure rfl

theorem exprFields {fields : List (String × Expr)} (ih : ∀ f ∈ fields, OnExpr E d r r' h b f.2)
    (Γ : Env) :
    Lockstep E (InferState.shift d)
      (Prod.map (Subst.shift d) (List.map fun g => (g.1, g.2.shift d)))
      (exprFields ⟨r, b⟩ Γ fields ∅)
      (exprFields ⟨r', b⟩ (Γ.shift d) (fields.map fun f => (f.1, f.2.mapAscriptions h)) ∅) := by
  have hlist := exprList (List.forall_mem_map.mpr ih) Γ Subst.shift_empty.symm
  rw [List.map_map] at hlist
  rw [exprFields_eq, exprFields_eq, List.map_map, List.map_map]
  refine hlist.map fun res => ?_
  simp [List.zip_map_right, Function.comp_def]

theorem exprArms (hr : Alike E d r r') {arms : List (Pattern × Expr)}
    (ih : ∀ arm ∈ arms, OnExpr E d r r' h b arm.2) (Γ : Env) (t u : Ty) :
    ∀ {s s' : Subst}, s' = s.shift d →
      Lockstep E (InferState.shift d) (Subst.shift d) (exprArms ⟨r, b⟩ Γ t u arms s)
        (exprArms ⟨r', b⟩ (Γ.shift d) (t.shift d) (u.shift d)
          (arms.map fun arm => (arm.1, arm.2.mapAscriptions h)) s') := by
  induction arms with
  | nil =>
      rintro s - rfl
      exact .pure rfl
  | cons arm arms iharms =>
      rintro s - rfl
      rw [List.map_cons, Infer.exprArms, Infer.exprArms]
      refine Lockstep.bind (hr.pattern arm.1 (by simp)) fun pt _ => ?_
      refine Lockstep.bind (ih arm List.mem_cons_self (by simp [Function.comp_def])) fun body _ => ?_
      refine Lockstep.bind (hr.unify (by simp) rfl) fun v _ => ?_
      exact iharms (fun q hq => ih q (List.mem_cons_of_mem arm hq)) (by simp)

attribute [local simp] Expr.mapAscriptions

namespace OnExpr

theorem lit (l : Literal) : OnExpr E d r r' h b (.lit l) := by
  rintro Γ - rfl
  exact .pure (by cases l <;> simp [Typing.shift, Literal.type])

theorem var (hr : Alike E d r r') (name : String) : OnExpr E d r r' h b (.var name) := by
  rintro Γ - rfl
  refine Lockstep.bind (Lockstep.lift (lookup_shift hr.errors Γ name)) fun σ _ => ?_
  exact Lockstep.bind (instantiate σ) fun t _ => .pure (by simp [Typing.shift])

theorem lam {param : String} {ascription : Option TypeExpr} {body : Expr}
    (hread : ∀ t ∈ ascription, ReadAlike E d r r' h t) (ih : OnExpr E d r r' h b body) :
    OnExpr E d r r' h b (.lam param ascription body) := by
  rintro Γ - rfl
  rw [Expr.mapAscriptions, expr, expr]
  refine Lockstep.bind (ascribedOrFresh hread) fun dom _ => ?_
  exact Lockstep.bind (ih (by simp)) fun cod _ => .pure (by simp [Typing.shift])

theorem app (hr : Alike E d r r') {fn arg : Expr} (ihf : OnExpr E d r r' h b fn)
    (iha : OnExpr E d r r' h b arg) : OnExpr E d r r' h b (.app fn arg) := by
  rintro Γ - rfl
  rw [Expr.mapAscriptions, expr, expr]
  refine Lockstep.bind (ihf rfl) fun ft _ => ?_
  refine Lockstep.bind (iha (by simp)) fun xt _ => Lockstep.bind fresh fun result _ => ?_
  exact Lockstep.bind (hr.unify (by simp) (by simp)) fun s _ => .pure (by simp [Typing.shift])

theorem letIn (hr : Alike E d r r') {name : String} {ascription : Option TypeExpr} {value body : Expr}
    (hread : ∀ t ∈ ascription, ReadAlike E d r r' h t) (ihv : OnExpr E d r r' h b value)
    (ihb : OnExpr E d r r' h b body) : OnExpr E d r r' h b (.letIn name ascription value body) := by
  rintro Γ - rfl
  rw [Expr.mapAscriptions, expr, expr]
  refine Lockstep.bind (ihv rfl) fun vt _ => Lockstep.bind (hr.ascribe hread vt) fun xt _ => ?_
  -- the body sees corresponding schemes, since generalization commutes with `shift`
  exact Lockstep.bind (ihb (by simp)) fun bt _ => .pure (by simp [Typing.shift])

theorem letRec (hr : Alike E d r r') {name : String} {ascription : Option TypeExpr} {value body : Expr}
    (hread : ∀ t ∈ ascription, ReadAlike E d r r' h t) (ihv : OnExpr E d r r' h b value)
    (ihb : OnExpr E d r r' h b body) : OnExpr E d r r' h b (.letRec name ascription value body) := by
  rintro Γ - rfl
  rw [Expr.mapAscriptions, expr, expr]
  refine Lockstep.bind (ascribedOrFresh hread) fun self _ => ?_
  refine Lockstep.bind (ihv (by simp)) fun vt _ => ?_
  refine Lockstep.bind (hr.unify (by simp) rfl) fun s _ => ?_
  exact Lockstep.bind (ihb (by simp)) fun bt _ => .pure (by simp [Typing.shift])

theorem ite (hr : Alike E d r r') {cond thenBranch elseBranch : Expr} (ihc : OnExpr E d r r' h b cond)
    (iht : OnExpr E d r r' h b thenBranch) (ihe : OnExpr E d r r' h b elseBranch) :
    OnExpr E d r r' h b (.ite cond thenBranch elseBranch) := by
  rintro Γ - rfl
  rw [Expr.mapAscriptions, expr, expr]
  refine Lockstep.bind (ihc rfl) fun ct _ => Lockstep.bind (hr.unify rfl rfl) fun u _ => ?_
  refine Lockstep.bind (iht (by simp)) fun tt _ => ?_
  refine Lockstep.bind (ihe (by simp)) fun et _ => ?_
  exact Lockstep.bind (hr.unify (by simp) rfl) fun s _ => .pure (by simp [Typing.shift])

theorem binop (hr : Alike E d r r') {op : String} {left right : Expr} (ihl : OnExpr E d r r' h b left)
    (ihr : OnExpr E d r r' h b right) : OnExpr E d r r' h b (.binop op left right) := by
  rintro Γ - rfl
  rw [Expr.mapAscriptions, expr, expr]
  split
  · exact Lockstep.lift (.error (hr.errors _))
  · next kind _ =>
      refine Lockstep.bind (ihl rfl) fun lt _ => Lockstep.bind (ihr (by simp)) fun rt _ => ?_
      refine Lockstep.bind (Lockstep.lift (operands_shift hr.errors kind (by simp) rfl)) fun s _ => ?_
      exact .pure (by cases kind <;> simp [Typing.shift, resultType])

theorem construct (hr : Alike E d r r') {name : String} {args : List Expr}
    (ih : ∀ e ∈ args, OnExpr E d r r' h b e) : OnExpr E d r r' h b (.construct name args) := by
  rintro Γ - rfl
  rw [Expr.mapAscriptions, Expr.mapAscriptionsList_eq, expr, expr, List.length_map]
  refine Lockstep.bind (hr.saturated _ _) fun con _ => ?_
  refine Lockstep.bind (hr.exprArgs ih Γ rfl Subst.shift_empty.symm) fun s _ => ?_
  exact .pure (by simp [Typing.shift, ConstructorInstance.shift])

theorem tuple {elems : List Expr} (ih : ∀ e ∈ elems, OnExpr E d r r' h b e) :
    OnExpr E d r r' h b (.tuple elems) := by
  rintro Γ - rfl
  rw [Expr.mapAscriptions, Expr.mapAscriptionsList_eq, expr, expr]
  refine Lockstep.bind (exprList ih Γ Subst.shift_empty.symm) fun res _ => ?_
  exact .pure (by simp [Typing.shift, Function.comp_def])

theorem proj (hr : Alike E d r r') {tuple : Expr} {index : Nat} (ih : OnExpr E d r r' h b tuple) :
    OnExpr E d r r' h b (.proj tuple index) := by
  rintro Γ - rfl
  rw [Expr.mapAscriptions, expr, expr]
  refine Lockstep.bind (ih rfl) fun ty _ => ?_
  refine Lockstep.bind (Lockstep.lift (component_shift hr.errors (by simp) index)) fun t _ => ?_
  exact .pure rfl

theorem record {fields : List (String × Expr)} (ih : ∀ f ∈ fields, OnExpr E d r r' h b f.2) :
    OnExpr E d r r' h b (.record fields) := by
  rintro Γ - rfl
  rw [Expr.mapAscriptions, Expr.mapAscriptionsFields_eq, expr, expr]
  refine Lockstep.bind (exprFields ih Γ) fun res _ => ?_
  exact .pure (by simp [Typing.shift, Function.comp_def])

theorem access (hr : Alike E d r r') {record : Expr} {label : String} (ih : OnExpr E d r r' h b record) :
    OnExpr E d r r' h b (.access record label) := by
  rintro Γ - rfl
  rw [Expr.mapAscriptions, expr, expr]
  refine Lockstep.bind (ih rfl) fun ty _ => ?_
  refine Lockstep.bind (Lockstep.lift (field_shift hr.errors (by simp) label)) fun t _ => ?_
  exact .pure rfl

theorem range (hr : Alike E d r r') {first last : Expr} (ihf : OnExpr E d r r' h b first)
    (ihl : OnExpr E d r r' h b last) : OnExpr E d r r' h b (.range first last) := by
  rintro Γ - rfl
  rw [Expr.mapAscriptions, expr, expr]
  refine Lockstep.bind (ihf rfl) fun ft _ => Lockstep.bind (hr.unify rfl rfl) fun u _ => ?_
  refine Lockstep.bind (ihl (by simp)) fun lt _ => ?_
  exact Lockstep.bind (hr.unify rfl rfl) fun s _ => .pure (by simp [Typing.shift])

theorem matchOn (hr : Alike E d r r') {scrutinee : Expr} {arms : List (Pattern × Expr)}
    (ihs : OnExpr E d r r' h b scrutinee) (ih : ∀ arm ∈ arms, OnExpr E d r r' h b arm.2) :
    OnExpr E d r r' h b (.matchOn scrutinee arms) := by
  rintro Γ - rfl
  have hpatterns : (arms.map fun arm => (arm.1, arm.2.mapAscriptions h)).map Prod.fst =
      arms.map Prod.fst := by simp
  rw [Expr.mapAscriptions, Expr.mapAscriptionsArms_eq, expr, expr, hpatterns]
  refine Lockstep.bind (ihs rfl) fun vt _ => Lockstep.bind fresh fun result _ => ?_
  -- the arms have been typed, so the patterns are known to the check
  refine Lockstep.bind (hr.exprArms ih Γ _ _ rfl) fun s hs => ?_
  refine Lockstep.bind (hr.coverage b (allKnown_of_exprArms hs)) fun _ _ => ?_
  exact .pure (by simp [Typing.shift])

end OnExpr

/-- Expressions that differ in their ascriptions only go in lockstep, if the ascriptions do. -/
theorem expr_lockstep (hr : Alike E d r r') (e : Expr) :
    (∀ t ∈ e.ascriptions, ReadAlike E d r r' h t) → OnExpr E d r r' h b e := by
  intro hread
  induction e with
  | lit l => exact OnExpr.lit l
  | var name => exact OnExpr.var hr name
  | lam param ascription body ih =>
      simp only [Expr.ascriptions, List.forall_mem_append, Option.mem_toList] at hread
      exact OnExpr.lam hread.1 (ih hread.2)
  | app fn arg ihf iha =>
      simp only [Expr.ascriptions, List.forall_mem_append] at hread
      exact OnExpr.app hr (ihf hread.1) (iha hread.2)
  | letIn name ascription value body ihv ihb =>
      simp only [Expr.ascriptions, List.forall_mem_append, Option.mem_toList] at hread
      exact OnExpr.letIn hr hread.1 (ihv hread.2.1) (ihb hread.2.2)
  | letRec name ascription value body ihv ihb =>
      simp only [Expr.ascriptions, List.forall_mem_append, Option.mem_toList] at hread
      exact OnExpr.letRec hr hread.1 (ihv hread.2.1) (ihb hread.2.2)
  | ite cond thenBranch elseBranch ihc iht ihe =>
      simp only [Expr.ascriptions, List.forall_mem_append] at hread
      exact OnExpr.ite hr (ihc hread.1) (iht hread.2.1) (ihe hread.2.2)
  | binop op left right ihl ihr =>
      simp only [Expr.ascriptions, List.forall_mem_append] at hread
      exact OnExpr.binop hr (ihl hread.1) (ihr hread.2)
  | construct name args ih =>
      simp only [Expr.ascriptions, Expr.mem_ascriptionsList] at hread
      exact OnExpr.construct hr fun e he => ih e he fun t ht => hread t ⟨e, he, ht⟩
  | tuple elems ih =>
      simp only [Expr.ascriptions, Expr.mem_ascriptionsList] at hread
      exact OnExpr.tuple fun e he => ih e he fun t ht => hread t ⟨e, he, ht⟩
  | proj tuple index ih => exact OnExpr.proj hr (ih hread)
  | record fields ih =>
      simp only [Expr.ascriptions, Expr.ascriptionsFields_eq, Expr.mem_ascriptionsList] at hread
      exact OnExpr.record fun f hf => ih f hf fun t ht => hread t ⟨f.2, List.mem_map_of_mem hf, ht⟩
  | access record label ih => exact OnExpr.access hr (ih hread)
  | range first last ihf ihl =>
      simp only [Expr.ascriptions, List.forall_mem_append] at hread
      exact OnExpr.range hr (ihf hread.1) (ihl hread.2)
  | matchOn scrutinee arms ihs ih =>
      simp only [Expr.ascriptions, Expr.ascriptionsArms_eq, List.forall_mem_append,
        Expr.mem_ascriptionsList] at hread
      refine OnExpr.matchOn hr (ihs hread.1) fun arm harm => ?_
      exact ih arm harm fun t ht => hread.2 t ⟨arm.2, List.mem_map_of_mem harm, ht⟩

end Alike

/-! ## Ascriptions -/

/-- An ascription is read in lockstep if it is resolved so: reading starts without any named variables. -/
theorem readAlike_of_resolve {E : TypeError → TypeError → Prop} {d : TyVar} {r r' : Registry}
    {h : TypeExpr → TypeExpr} {t : TypeExpr}
    (hres : Lockstep E (NamedVars.shift d) (Ty.shift d) (r.resolveAscription t)
      (r'.resolveAscription (h t))) : ReadAlike E d r r' h t := by
  intro st
  obtain ⟨hout, hscope⟩ := hres { next := st.next }
  have hstart : NamedVars.shift d { next := st.next } = { next := st.next + d } := by
    simp [NamedVars.shift]
  rw [hstart] at hout hscope
  exact ⟨hout, congrArg (fun sc : NamedVars => { st with next := sc.next }) hscope⟩

end Infer

end Polytype
