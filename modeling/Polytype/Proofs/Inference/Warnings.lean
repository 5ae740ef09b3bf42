/-
# Polytype.Proofs.Inference.Warnings — which warnings a program is given.

Warnings are collected on the way, while types are found, so it is not plain that they have nothing to do
with types.  But inference goes through an expression once and in a fixed order, and the only step that
warns is the coverage check at the end of a match, which reads the patterns of the arms and the
declarations.  So the warnings can be read off the expression: list its matches in the order in which
inference comes to their end (`Expr.matchNodes`), ask the check about each, and keep what it complains
about (`Warns`).

Whatever lies between two parts of an expression adds nothing (`quiet`), hence each form of expression
adds what its parts add, one after the other (`expr_warns`).
-/
import Mathlib
import Polytype.Proofs.Inference.Congruence

namespace Polytype

/-! ## The matches of an expression -/

namespace Expr

mutual
/-- The matches of an expression, each given by the patterns of its arms.  A match comes after those in
its scrutinee and in its arms; otherwise the order is that of the expression. -/
def matchNodes : Expr → List (List Pattern)
  | .lit _ => []
  | .var _ => []
  | .lam _ _ body => matchNodes body
  | .app fn arg => matchNodes fn ++ matchNodes arg
  | .letIn _ _ value body => matchNodes value ++ matchNodes body
  | .letRec _ _ value body => matchNodes value ++ matchNodes body
  | .ite c t e => matchNodes c ++ (matchNodes t ++ matchNodes e)
  | .binop _ left right => matchNodes left ++ matchNodes right
  | .construct _ args => matchNodesList args
  | .tuple elems => matchNodesList elems
  | .proj e _ => matchNodes e
  | .record fields => matchNodesFields fields
  | .access e _ => matchNodes e
  | .range first last => matchNodes first ++ matchNodes last
  | .matchOn scrutinee arms => matchNodes scrutinee ++ (matchNodesArms arms ++ [arms.map Prod.fst])
/-- The matches of expressions one after the other. -/
def matchNodesList : List Expr → List (List Pattern)
  | [] => []
  | e :: es => matchNodes e ++ matchNodesList es
/-- The matches in the fields of a record, which stand in ascending order of their labels. -/
def matchNodesFields : List (String × Expr) → List (List Pattern)
  | [] => []
  | (_, e) :: fields => matchNodes e ++ matchNodesFields fields
/-- The matches in the bodies of arms. -/
def matchNodesArms : List (Pattern × Expr) → List (List Pattern)
  | [] => []
  | (_, e) :: arms => matchNodes e ++ matchNodesArms arms
end

theorem matchNodesFields_eq (fields : List (String × Expr)) :
    matchNodesFields fields = matchNodesList (fields.map Prod.snd) := by
  induction fields with
  | nil => rfl
  | cons f fields ih => rw [matchNodesFields, ih, List.map_cons, matchNodesList]

end Expr

/-! ## What is added to the warnings -/

/-- The warnings have grown by one for each of the matches that the check complains about, in order. -/
def Warns (r : Registry) (nodes : List (List Pattern)) (before after : List Diagnostic) : Prop :=
  ∃ reports, nodes.mapM (Coverage.missingCases r) = .ok reports ∧
    after = before ++ (reports.filter fun missing => !missing.isEmpty).map .nonExhaustiveMatch

namespace Warns

variable {r : Registry} {nodes more : List (List Pattern)} {ws₁ ws₂ ws₃ : List Diagnostic}

theorem none (r : Registry) (ws : List Diagnostic) : Warns r [] ws ws :=
  ⟨[], rfl, (List.append_nil ws).symm⟩

theorem trans (h₁ : Warns r nodes ws₁ ws₂) (h₂ : Warns r more ws₂ ws₃) :
    Warns r (nodes ++ more) ws₁ ws₃ := by
  obtain ⟨reports, hreports, rfl⟩ := h₁
  obtain ⟨reports', hreports', rfl⟩ := h₂
  refine ⟨reports ++ reports', ?_, ?_⟩
  · rw [List.mapM_append, hreports, hreports']
    rfl
  · rw [List.filter_append, List.map_append, List.append_assoc]

theorem of_coverage {c : InferContext} (hon : c.checkCoverage = true) {ps : List Pattern}
    {st st' : InferState} {done : Unit} (h : (Infer.coverage c ps).start st = (.ok done, st')) :
    Warns c.registry [ps] st.warnings st'.warnings := by
  rw [Infer.start_coverage, if_pos hon] at h
  split at h
  · next missing hmissing =>
      cases h
      refine ⟨[missing], ?_, ?_⟩
      · rw [List.mapM_cons, hmissing]
        rfl
      · cases missing <;> simp [Infer.warned]
  · cases h

end Warns

namespace Infer

variable {r : Registry} {c : InferContext} {Γ : Env} {st st' : InferState}

/-- Where coverage is not checked, nothing warns. -/
theorem quiet (r : Registry) :
    Respected r false false fun _ x _ => Leads (fun st st' => st'.warnings = st.warnings) x :=
  respected_leads (fun _ => rfl) (fun _ _ _ h₁ h₂ => h₂.trans h₁) (fun _ _ _ => rfl) fun _ _ => rfl

theorem warnings_eq {α : Type} {x : Infer α} (hx : Leads (fun st st' => st'.warnings = st.warnings) x)
    {a : α} (h : x.start st = (.ok a, st')) : st'.warnings = st.warnings := by
  rw [← hx st, h]

/-- Inference on the expression warns about the matches in it. -/
def WarnsOn (c : InferContext) (e : Expr) : Prop :=
  ∀ {Γ : Env} {st st' : InferState} {ty : Typing}, (expr c Γ e).start st = (.ok ty, st') →
    Warns c.registry e.matchNodes st.warnings st'.warnings

theorem exprArgs_warns {es : List Expr} (ih : ∀ e ∈ es, WarnsOn c e) :
    ∀ {ts : List Ty} {s s' : Subst} {st st' : InferState}, es.length = ts.length →
      (exprArgs c Γ es ts s).start st = (.ok s', st') →
      Warns c.registry (Expr.matchNodesList es) st.warnings st'.warnings := by
  induction es with
  | nil =>
      intro ts s s' st st' _ h
      obtain ⟨-, rfl⟩ := start_exprArgs_nil.mp h
      exact .none _ _
  | cons e es ihes =>
      intro ts s s' st st' hlen h
      cases ts with
      | nil => cases hlen
      | cons t ts =>
          obtain ⟨xt, st₁, he, u, -, h⟩ := start_exprArgs_cons.mp h
          refine (ih e List.mem_cons_self he).trans ?_
          exact ihes (fun q hq => ih q (List.mem_cons_of_mem e hq)) (Nat.succ.inj hlen) h

theorem exprList_warns {es : List Expr} (ih : ∀ e ∈ es, WarnsOn c e) :
    ∀ {s : Subst} {res : Subst × List Ty} {st st' : InferState},
      (exprList c Γ es s).start st = (.ok res, st') →
      Warns c.registry (Expr.matchNodesList es) st.warnings st'.warnings := by
  induction es with
  | nil =>
      intro s res st st' h
      obtain ⟨-, rfl⟩ := start_exprList_nil.mp h
      exact .none _ _
  | cons e es ihes =>
      intro s res st st' h
      obtain ⟨xt, st₁, he, s', ts, st₂, hes, -, rfl⟩ := start_exprList_cons.mp h
      refine (ih e List.mem_cons_self he).trans ?_
      exact ihes (fun q hq => ih q (List.mem_cons_of_mem e hq)) hes

theorem exprArms_warns {arms : List (Pattern × Expr)} (ih : ∀ arm ∈ arms, WarnsOn c arm.2) {a b : Ty} :
    ∀ {s s' : Subst} {st st' : InferState}, (exprArms c Γ a b arms s).start st = (.ok s', st') →
      Warns c.registry (Expr.matchNodesArms arms) st.warnings st'.warnings := by
  induction arms with
  | nil =>
      intro s s' st st' h
      obtain ⟨-, rfl⟩ := start_exprArms_nil.mp h
      exact .none _ _
  | cons arm arms iharms =>
      intro s s' st st' h
      obtain ⟨p, e⟩ := arm
      obtain ⟨pt, st₁, hp, bt, st₂, he, u, -, h⟩ := start_exprArms_cons.mp h
      have hbody := ih (p, e) List.mem_cons_self he
      rw [warnings_eq ((quiet _).pattern p _) hp] at hbody
      exact hbody.trans (iharms (fun q hq => ih q (List.mem_cons_of_mem (p, e) hq)) h)

/-- The warnings that inference adds are those about the matches of the expression, in their order. -/
theorem expr_warns (hon : c.checkCoverage = true) (e : Expr) : WarnsOn c e := by
  induction e with
  | lit l =>
      intro Γ st st' ty h
      obtain ⟨-, rfl⟩ := start_pure_ok.mp h
      exact .none _ _
  | var name =>
      intro Γ st st' ty h
      obtain ⟨σ, -, -, rfl⟩ := start_expr_var.mp h
      rw [warnings_drawnTo]
      exact .none _ _
  | lam param ascription body ih =>
      intro Γ st st' ty h
      obtain ⟨dom, st₁, hdom, bt, st₂, hbody, -, rfl⟩ := start_expr_lam.mp h
      rw [← warnings_eq ((quiet _).ascribedOrFresh ascription) hdom]
      exact ih hbody
  | app fn arg ihf iha =>
      intro Γ st st' ty h
      obtain ⟨ft, st₁, hf, xt, st₂, hx, u, -, -, rfl⟩ := start_expr_app.mp h
      rw [warnings_drawnTo]
      exact (ihf hf).trans (iha hx)
  | letIn name ascription value body ihv ihb =>
      intro Γ st st' ty h
      obtain ⟨vt, st₁, hv, xt, st₂, hx, bt, st₃, hb, -, rfl⟩ := start_expr_letIn.mp h
      have hbody := ihb hb
      rw [warnings_eq ((quiet _).ascribe ascription vt) hx] at hbody
      exact (ihv hv).trans hbody
  | letRec name ascription value body ihv ihb =>
      intro Γ st st' ty h
      obtain ⟨self, st₁, hself, vt, st₂, hv, u, -, bt, st₃, hb, -, rfl⟩ := start_expr_letRec.mp h
      rw [← warnings_eq ((quiet _).ascribedOrFresh ascription) hself]
      exact (ihv hv).trans (ihb hb)
  | ite cond thenBranch elseBranch ihc iht ihe =>
      intro Γ st st' ty h
      obtain ⟨ct, st₁, hc, u₁, -, tt, st₂, ht, et, st₃, he, u₂, -, -, rfl⟩ := start_expr_ite.mp h
      exact (ihc hc).trans ((iht ht).trans (ihe he))
  | binop op left right ihl ihr =>
      intro Γ st st' ty h
      obtain ⟨kind, -, lt, st₁, hl, rt, st₂, hr, u, -, -, rfl⟩ := start_expr_binop.mp h
      exact (ihl hl).trans (ihr hr)
  | construct name args ih =>
      intro Γ st st' ty h
      obtain ⟨info, -, hlen, s, st₁, hargs, -, rfl⟩ := start_expr_construct.mp h
      have hwarns := exprArgs_warns ih (by rw [hlen, length_instantiate]) hargs
      rwa [warnings_drawnTo] at hwarns
  | tuple elems ih =>
      intro Γ st st' ty h
      obtain ⟨s, ts, st₁, helems, -, rfl⟩ := start_expr_tuple.mp h
      exact exprList_warns ih helems
  | proj tuple index ih =>
      intro Γ st st' ty h
      obtain ⟨tt, st₁, ht, t, -, -, rfl⟩ := start_expr_proj.mp h
      exact ih ht
  | record fields ih =>
      intro Γ st st' ty h
      obtain ⟨s, ts, st₁, hfields, -, rfl⟩ := start_expr_record.mp h
      rw [Expr.matchNodes, Expr.matchNodesFields_eq]
      exact exprList_warns (List.forall_mem_map.mpr ih) hfields
  | access record label ih =>
      intro Γ st st' ty h
      obtain ⟨rt, st₁, hr, t, -, -, rfl⟩ := start_expr_access.mp h
      exact ih hr
  | range first last ihf ihl =>
      intro Γ st st' ty h
      obtain ⟨ft, st₁, hf, u₁, -, lt, st₂, hl, u₂, -, -, rfl⟩ := start_expr_range.mp h
      exact (ihf hf).trans (ihl hl)
  | matchOn scrutinee arms ihs ih =>
      intro Γ st st' ty h
      obtain ⟨vt, st₁, hs, s, st₂, harms, done, st₃, hcov, -, rfl⟩ := start_expr_matchOn.mp h
      exact (ihs hs).trans ((exprArms_warns ih harms).trans (.of_coverage hon hcov))

end Infer

/-- **One warning for each match that leaves something out.** The warnings of an accepted program are
those about the matches of its body that the check complains about, in the order of `Expr.matchNodes`. -/
theorem typecheck_warnings {p : Program} {options : Options} {checked : Checked}
    (hon : options.checkCoverage = true) (h : typecheck p options = .ok checked) :
    ∃ r reports, Registry.build p.decls = .ok r ∧
      p.body.matchNodes.mapM (Coverage.missingCases r) = .ok reports ∧
      checked.warnings =
        (reports.filter fun missing => !missing.isEmpty).map Diagnostic.nonExhaustiveMatch := by
  obtain ⟨r, hbuild, ty, st, hrun, rfl⟩ := typecheck_ok.mp h
  obtain ⟨reports, hreports, hwarnings⟩ :=
    Infer.expr_warns (c := ⟨r, options.checkCoverage⟩) hon p.body hrun
  exact ⟨r, reports, hbuild, hreports, hwarnings⟩

/-- A match on an integer whose only arm matches on a truth value; both leave something out. -/
def nestedMatches : Program where
  decls := []
  body := .lam "b" none
    (.matchOn (.lit (.int 3)) [(.int 0, .matchOn (.var "b") [(.bool true, .lit (.int 1))])])

theorem typecheck_warnings_nestedMatches :
    ∃ checked, typecheck nestedMatches = .ok checked ∧
      checked.warnings = [.nonExhaustiveMatch ["false"], .nonExhaustiveMatch ["<other integers>"]] := by
  have haccepted : (typecheck nestedMatches).toOption.isSome := by cbv
  obtain ⟨checked, hchecked⟩ := Option.isSome_iff_exists.mp haccepted
  have h := eq_ok_of_toOption hchecked
  obtain ⟨r, reports, hbuild, hreports, hwarnings⟩ := typecheck_warnings rfl h
  have hnodes : ((Registry.build nestedMatches.decls).bind fun r =>
      nestedMatches.body.matchNodes.mapM (Coverage.missingCases r)).toOption =
        some [["false"], ["<other integers>"]] := by cbv
  rw [hbuild, Except.bind, hreports] at hnodes
  cases hnodes
  exact ⟨checked, h, hwarnings⟩

end Polytype
