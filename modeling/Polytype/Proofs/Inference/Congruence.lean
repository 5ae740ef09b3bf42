/-
# Polytype.Proofs.Inference.Congruence — inference is put together from a few operations.

Inference looks things up and unifies, which may fail; it draws variables, reads ascriptions and checks
coverage; all else is sequence.  So a relation between computations that holds of these operations and
passes through sequences (`Respected`) holds of every run (`expr_respects`).  The equivalences of `Steps`
are about runs that succeed, while such a relation may also say what a failing run leaves behind, and it
may compare a run that checks coverage with one that does not.  The simplest such relations look at one run
and say how its last state compares with its first (`respected_leads`).

The coverage check of a match comes after its arms.  By then every pattern has been typed, hence is made
of declared constructors (`pattern_known`), and the relation need not hold of the check otherwise.
-/
import Polytype.Proofs.Coverage.Totality
import Polytype.Proofs.Inference.Hygiene

namespace Polytype

namespace Infer

variable {r : Registry} {c : InferContext} {Γ : Env}

/-! ## Typed patterns are known -/

theorem patternList_known {ps : List Pattern}
    (ih : ∀ p ∈ ps, ∀ {t : Ty} {st st' : InferState} {pt : PatternTyping},
      (pattern r p t).start st = (.ok pt, st') → p.Known r) :
    ∀ {ts : List Ty} {s : Subst} {st st' : InferState} {pt : PatternTyping},
      ps.length = ts.length → (patternList r ps ts s).start st = (.ok pt, st') →
      Coverage.AllKnown r ps := by
  induction ps with
  | nil => exact fun _ _ p hp => absurd hp List.not_mem_nil
  | cons p ps ihps =>
      intro ts s st st' pt hlen h
      cases ts with
      | nil => cases hlen
      | cons t ts =>
          obtain ⟨here, st₁, rest, st₂, hp, hps, -, -⟩ := start_patternList_cons.mp h
          refine List.forall_mem_cons.mpr ⟨ih p List.mem_cons_self hp, ?_⟩
          exact ihps (fun q hq => ih q (List.mem_cons_of_mem p hq)) (Nat.succ.inj hlen) hps

/-- A pattern that has been typed is made of declared constructors. -/
theorem pattern_known (p : Pattern) :
    ∀ {t : Ty} {st st' : InferState} {pt : PatternTyping},
      (pattern r p t).start st = (.ok pt, st') → p.Known r := by
  induction p with
  | wildcard => exact fun _ => .wildcard
  | var name => exact fun _ => .var name
  | int n => exact fun _ => .int n
  | bool b => exact fun _ => .bool b
  | con name args ih =>
      intro t st st' pt h
      obtain ⟨info, hinfo, hlen, u, -, h⟩ := start_pattern_con.mp h
      refine .con hinfo (patternList_known ih ?_ h)
      rw [hlen, length_instantiate]
  | tuple elems ih =>
      intro t st st' pt h
      obtain ⟨u, -, h⟩ := start_pattern_tuple.mp h
      exact .tuple (patternList_known ih (length_freshTys _ _).symm h)
  | record fields ih =>
      intro t st st' pt h
      obtain ⟨s, ts, st₁, hfields, h⟩ := start_pattern_record.mp h
      have hps := patternList_known (List.forall_mem_map.mpr ih) (recordFields_length hfields) h
      exact .record (List.forall_mem_map.mp hps)

/-- The computation gives this result from some state. -/
def Gives {α : Type} (x : Infer α) (a : α) : Prop := ∃ st st', x.start st = (.ok a, st')

theorem allKnown_of_exprArms {arms : List (Pattern × Expr)} {a b : Ty} :
    ∀ {s s' : Subst}, (exprArms c Γ a b arms s).Gives s' →
      Coverage.AllKnown c.registry (arms.map Prod.fst) := by
  induction arms with
  | nil => exact fun _ p hp => absurd hp List.not_mem_nil
  | cons arm arms ih =>
      rintro s s' ⟨st, st', h⟩
      obtain ⟨p, e⟩ := arm
      obtain ⟨pt, st₁, hp, bt, st₂, -, u, -, h⟩ := start_exprArms_cons.mp h
      exact List.forall_mem_cons.mpr ⟨pattern_known p hp, ih ⟨st₂, st', h⟩⟩

/-! ## Relations that the operations respect -/

/-- The relation holds of the operations of inference, with and without the coverage check as `b` and
`b'` say, and passes through sequences. -/
structure Respected (r : Registry) (b b' : Bool)
    (R : ∀ ⦃α : Type⦄, Infer α → Infer α → Prop) : Prop where
  lift : ∀ {α : Type} (x : Except TypeError α), R (liftM x) (liftM x)
  bind : ∀ {α β : Type} {x y : Infer α} {f g : α → Infer β},
    R x y → (∀ a, x.Gives a → R (f a) (g a)) → R (x >>= f) (y >>= g)
  freshBlock : ∀ k, R (freshBlock k) (freshBlock k)
  ascribed : ∀ e, R (ascribed r e) (ascribed r e)
  coverage : ∀ ps, Coverage.AllKnown r ps → R (coverage ⟨r, b⟩ ps) (coverage ⟨r, b'⟩ ps)

namespace Respected

variable {b b' : Bool} {R : ∀ ⦃α : Type⦄, Infer α → Infer α → Prop}

section Operations

variable (h : Respected r b b' R)
include h

theorem pure {α : Type} (a : α) : R (Pure.pure a) (Pure.pure a) := h.lift (.ok a)

theorem map {α β : Type} {x y : Infer α} (f : α → β) (hxy : R x y) : R (f <$> x) (f <$> y) := by
  rw [map_eq_pure_bind, map_eq_pure_bind]
  exact h.bind hxy fun a _ => h.pure (f a)

theorem fresh : R fresh fresh := h.bind (h.freshBlock 1) fun _ _ => h.pure _

theorem freshList (k : Nat) : R (freshList k) (freshList k) :=
  h.bind (h.freshBlock k) fun _ _ => h.pure _

theorem instantiate (σ : Scheme) : R (instantiate σ) (instantiate σ) :=
  h.bind (h.freshBlock σ.arity) fun _ _ => h.pure _

theorem ascribedOrFresh (ascription : Option TypeExpr) :
    R (ascribedOrFresh r ascription) (ascribedOrFresh r ascription) := by
  cases ascription with
  | none => exact h.fresh
  | some e => exact h.ascribed e

theorem saturated (name : String) (count : Nat) :
    R (saturated r name count) (saturated r name count) := by
  refine h.bind (h.lift _) fun con _ => ?_
  have hinst : R (instantiateConstructor con) (instantiateConstructor con) :=
    h.bind (h.freshBlock con.paramCount) fun _ _ => h.pure _
  dsimp only
  split
  · exact h.bind (h.lift _) fun _ _ => hinst
  · exact hinst

theorem recordFields (t : Ty) (labels : List String) :
    R (recordFields t labels) (recordFields t labels) := by
  unfold Infer.recordFields
  split
  · exact h.bind (h.lift _) fun _ _ => h.pure _
  · exact h.bind (h.freshList _) fun _ _ => h.bind (h.lift _) fun _ _ => h.pure _

theorem ascribe (ascription : Option TypeExpr) (vt : Typing) :
    R (ascribe r ascription vt) (ascribe r ascription vt) := by
  cases ascription with
  | none => exact h.pure vt
  | some e => exact h.bind (h.ascribed e) fun _ _ => h.bind (h.lift _) fun _ _ => h.pure _

end Operations

/-! ## Patterns -/

theorem patternList (h : Respected r b b' R) {ps : List Pattern}
    (ih : ∀ p ∈ ps, ∀ t, R (pattern r p t) (pattern r p t)) :
    ∀ ts s, R (patternList r ps ts s) (patternList r ps ts s) := by
  induction ps with
  | nil =>
      intro ts s
      cases ts <;> exact h.pure _
  | cons p ps ihps =>
      intro ts s
      cases ts with
      | nil => exact h.pure _
      | cons t ts =>
          rw [Infer.patternList]
          refine h.bind (ih p List.mem_cons_self _) fun here _ => ?_
          exact h.bind (ihps (fun q hq => ih q (List.mem_cons_of_mem p hq)) ts _) fun _ _ => h.pure _

theorem pattern (h : Respected r b b' R) (p : Pattern) :
    ∀ t, R (pattern r p t) (pattern r p t) := by
  induction p with
  | wildcard => exact fun _ => h.pure _
  | var name => exact fun _ => h.pure _
  | int n => exact fun _ => h.bind (h.lift _) fun _ _ => h.pure _
  | bool b => exact fun _ => h.bind (h.lift _) fun _ _ => h.pure _
  | con name args ih =>
      intro t
      rw [Infer.pattern]
      exact h.bind (h.saturated _ _) fun con _ => h.bind (h.lift _) fun s _ => h.patternList ih _ _
  | tuple elems ih =>
      intro t
      rw [Infer.pattern]
      exact h.bind (h.freshList _) fun ts _ => h.bind (h.lift _) fun s _ => h.patternList ih _ _
  | record fields ih =>
      intro t
      rw [Infer.pattern]
      refine h.bind (h.recordFields _ _) fun res _ => ?_
      simp only [patternFields_eq]
      exact h.patternList (List.forall_mem_map.mpr ih) _ _

/-! ## Expressions -/

/-- The relation holds of the runs on the expression. -/
def OnExpr (r : Registry) (b b' : Bool) (R : ∀ ⦃α : Type⦄, Infer α → Infer α → Prop) (e : Expr) :
    Prop := ∀ Γ, R (expr ⟨r, b⟩ Γ e) (expr ⟨r, b'⟩ Γ e)

theorem exprArgs (h : Respected r b b' R) {es : List Expr} (ih : ∀ e ∈ es, OnExpr r b b' R e)
    (Γ : Env) : ∀ ts s, R (exprArgs ⟨r, b⟩ Γ es ts s) (exprArgs ⟨r, b'⟩ Γ es ts s) := by
  induction es with
  | nil =>
      intro ts s
      cases ts <;> exact h.pure _
  | cons e es ihes =>
      intro ts s
      cases ts with
      | nil => exact h.pure _
      | cons t ts =>
          rw [Infer.exprArgs, Infer.exprArgs]
          refine h.bind (ih e List.mem_cons_self _) fun arg _ => h.bind (h.lift _) fun u _ => ?_
          exact ihes (fun q hq => ih q (List.mem_cons_of_mem e hq)) ts _

theorem exprList (h : Respected r b b' R) {es : List Expr} (ih : ∀ e ∈ es, OnExpr r b b' R e)
    (Γ : Env) : ∀ s, R (exprList ⟨r, b⟩ Γ es s) (exprList ⟨r, b'⟩ Γ es s) := by
  induction es with
  | nil => exact fun _ => h.pure _
  | cons e es ihes =>
      intro s
      rw [Infer.exprList, Infer.exprList]
      refine h.bind (ih e List.mem_cons_self _) fun elem _ => ?_
      exact h.bind (ihes (fun q hq => ih q (List.mem_cons_of_mem e hq)) _) fun _ _ => h.pure _

theorem exprArms (h : Respected r b b' R) {arms : List (Pattern × Expr)}
    (ih : ∀ arm ∈ arms, OnExpr r b b' R arm.2) (Γ : Env) (t u : Ty) :
    ∀ s, R (exprArms ⟨r, b⟩ Γ t u arms s) (exprArms ⟨r, b'⟩ Γ t u arms s) := by
  induction arms with
  | nil => exact fun _ => h.pure _
  | cons arm arms iharms =>
      intro s
      rw [Infer.exprArms, Infer.exprArms]
      refine h.bind (h.pattern arm.1 _) fun pt _ => ?_
      refine h.bind (ih arm List.mem_cons_self _) fun body _ => h.bind (h.lift _) fun v _ => ?_
      exact iharms (fun q hq => ih q (List.mem_cons_of_mem arm hq)) _

/-- What holds of the operations of inference holds of every run. -/
theorem expr_respects (h : Respected r b b' R) (e : Expr) : OnExpr r b b' R e := by
  induction e with
  | lit l => exact fun _ => h.pure _
  | var name => exact fun Γ => h.bind (h.lift _) fun σ _ => h.bind (h.instantiate σ) fun _ _ => h.pure _
  | lam param ascription body ih =>
      intro Γ
      rw [expr, expr]
      exact h.bind (h.ascribedOrFresh _) fun dom _ => h.bind (ih _) fun _ _ => h.pure _
  | app fn arg ihf iha =>
      intro Γ
      rw [expr, expr]
      refine h.bind (ihf _) fun ft _ => h.bind (iha _) fun xt _ => ?_
      exact h.bind h.fresh fun _ _ => h.bind (h.lift _) fun _ _ => h.pure _
  | letIn name ascription value body ihv ihb =>
      intro Γ
      rw [expr, expr]
      refine h.bind (ihv _) fun vt _ => h.bind (h.ascribe _ vt) fun xt _ => ?_
      exact h.bind (ihb _) fun _ _ => h.pure _
  | letRec name ascription value body ihv ihb =>
      intro Γ
      rw [expr, expr]
      refine h.bind (h.ascribedOrFresh _) fun self _ => h.bind (ihv _) fun vt _ => ?_
      exact h.bind (h.lift _) fun _ _ => h.bind (ihb _) fun _ _ => h.pure _
  | ite cond thenBranch elseBranch ihc iht ihe =>
      intro Γ
      rw [expr, expr]
      refine h.bind (ihc _) fun ct _ => h.bind (h.lift _) fun u₁ _ => ?_
      refine h.bind (iht _) fun tt _ => h.bind (ihe _) fun et _ => ?_
      exact h.bind (h.lift _) fun _ _ => h.pure _
  | binop op left right ihl ihr =>
      intro Γ
      rw [expr, expr]
      split
      · exact h.lift _
      · refine h.bind (ihl _) fun lt _ => h.bind (ihr _) fun rt _ => ?_
        exact h.bind (h.lift _) fun _ _ => h.pure _
  | construct name args ih =>
      intro Γ
      rw [expr, expr]
      exact h.bind (h.saturated _ _) fun con _ => h.bind (h.exprArgs ih Γ _ _) fun _ _ => h.pure _
  | tuple elems ih =>
      intro Γ
      rw [expr, expr]
      exact h.bind (h.exprList ih Γ _) fun _ _ => h.pure _
  | proj tuple index ih =>
      intro Γ
      rw [expr, expr]
      exact h.bind (ih _) fun _ _ => h.bind (h.lift _) fun _ _ => h.pure _
  | record fields ih =>
      intro Γ
      rw [expr, expr, exprFields_eq, exprFields_eq]
      exact h.bind (h.map _ (h.exprList (List.forall_mem_map.mpr ih) Γ _)) fun _ _ => h.pure _
  | access record label ih =>
      intro Γ
      rw [expr, expr]
      exact h.bind (ih _) fun _ _ => h.bind (h.lift _) fun _ _ => h.pure _
  | range first last ihf ihl =>
      intro Γ
      rw [expr, expr]
      refine h.bind (ihf _) fun ft _ => h.bind (h.lift _) fun u₁ _ => ?_
      exact h.bind (ihl _) fun lt _ => h.bind (h.lift _) fun _ _ => h.pure _
  | matchOn scrutinee arms ihs ih =>
      intro Γ
      rw [expr, expr]
      refine h.bind (ihs _) fun vt _ => h.bind h.fresh fun result _ => ?_
      -- the arms have been typed, so the patterns are known to the check
      refine h.bind (h.exprArms ih Γ _ _ _) fun s hs => ?_
      exact h.bind (h.coverage _ (allKnown_of_exprArms hs)) fun _ _ => h.pure _

end Respected

/-! ## States along a run -/

/-- The last state of every run of the computation, whether it succeeds or fails, is related to the
first one. -/
def Leads (S : InferState → InferState → Prop) {α : Type} (x : Infer α) : Prop :=
  ∀ st, S st (x.start st).2

theorem Leads.bind {S : InferState → InferState → Prop}
    (htrans : ∀ st₁ st₂ st₃, S st₁ st₂ → S st₂ st₃ → S st₁ st₃) {α β : Type} {x : Infer α}
    {f : α → Infer β} (hx : Leads S x) (hf : ∀ a, x.Gives a → Leads S (f a)) : Leads S (x >>= f) := by
  intro st
  have h := hx st
  rw [start_bind]
  rcases hrun : x.start st with ⟨e | a, st'⟩ <;> rw [hrun] at h
  · exact h
  · exact htrans _ _ _ h (hf a ⟨st, st', hrun⟩ st')

/-- A run goes from state to state by drawing variables and by checking coverage. -/
theorem respected_leads {S : InferState → InferState → Prop} {b : Bool} (hrefl : ∀ st, S st st)
    (htrans : ∀ st₁ st₂ st₃, S st₁ st₂ → S st₂ st₃ → S st₁ st₃)
    (hdraw : ∀ st n, st.next ≤ n → S st (drawnTo st n))
    (hcov : ∀ ps, Leads S (coverage ⟨r, b⟩ ps)) : Respected r b b fun _ x _ => Leads S x where
  lift _ st := hrefl st
  bind := Leads.bind htrans
  freshBlock k st := hdraw st _ (le_add_count st.next k)
  ascribed e st := by
    rw [start_ascribed]
    exact hdraw st _ (Resolve.Extending.resolveWith e { next := st.next }).next_le
  coverage ps _ := hcov ps

end Infer

end Polytype
