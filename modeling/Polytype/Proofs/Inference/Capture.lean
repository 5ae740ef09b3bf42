/-
# Polytype.Proofs.Inference.Capture — no variable is captured, and every result is solved.

A substitution goes through an environment without renaming anything, so a variable that it puts into a
scheme could fall under the quantifier there.  Nothing in inference looks out for this.  It cannot
happen because a run mentions no variables but the free ones of its environment and those that it draws
itself (`expr_tidy`): the quantified ones are neither.  An environment whose quantified variables are old
and not free (`Env.Hygienic`) is again such an environment after the run.

That variables are new when they are drawn rests on the supply, which never falls, not even in a run that
fails (`expr_advances`).

For the same reason the result of a run is solved: each step leaves alone what the steps before it have
bound, so the composite is idempotent, and the type that is given mentions none of the bound variables.
-/
import Mathlib
import Polytype.Proofs.Coverage.Soundness
import Polytype.Proofs.Inference.Congruence
import Polytype.Proofs.Inference.Generalization

namespace Polytype

/-! ## The supply -/

namespace Infer

/-- No variable is given back, whether the run succeeds or fails. -/
theorem expr_advances (c : InferContext) (Γ : Env) (e : Expr) (st : InferState) :
    st.next ≤ ((expr c Γ e).start st).2.next := by
  have h : Respected c.registry c.checkCoverage c.checkCoverage
      fun _ x _ => Leads (fun st st' => st.next ≤ st'.next) x := by
    refine respected_leads (fun st => Int.le_refl st.next) (fun _ _ _ => Int.le_trans)
      (fun st n hn => hn) fun ps st => ?_
    exact Int.le_of_eq (next_start_coverage _ ps st).symm
  exact h.expr_respects e Γ st

end Infer

/-! ## Hygienic environments -/

namespace Env

variable {W : Set TyVar} {n n₁ : TyVar} {Γ : Env} {s : Subst}

/-- Some scheme of the environment quantifies the variable. -/
def Quantified (Γ : Env) (v : TyVar) : Prop :=
  ∃ (x : String) (σ : Scheme), Γ[x]? = some σ ∧ v ∈ σ.quantified

/-- The variables of the environment have been drawn before `n`, and none of them is quantified in one
place and free in another. -/
structure Hygienic (n : TyVar) (Γ : Env) : Prop where
  free_lt : ∀ v ∈ Γ.freeVars, v < n
  quantified_lt : ∀ v, Γ.Quantified v → v < n
  apart : ∀ v, Γ.Quantified v → v ∉ Γ.freeVars

theorem freeIn_freeVars (Γ : Env) : Γ.FreeIn {v | v ∈ Γ.freeVars} := fun _ hv => free_iff.mp hv

/-- A hygienic environment is clean over its own free variables. -/
theorem Hygienic.clean (h : Γ.Hygienic n) : Γ.Clean {v | v ∈ Γ.freeVars} n := by
  refine ⟨h.free_lt, freeIn_freeVars Γ, fun x σ hx v hv => ?_⟩
  have hq : Γ.Quantified v := ⟨x, σ, hx, hv⟩
  exact ⟨h.quantified_lt v hq, h.apart v hq⟩

theorem Clean.hygienic (h : Γ.Clean W n) : Γ.Hygienic n := by
  refine ⟨fun v hv => h.below v (h.free v (free_iff.mpr hv)), ?_, ?_⟩
  · rintro v ⟨x, σ, hx, hv⟩
    exact (h.quantified x σ hx v hv).1
  · rintro v ⟨x, σ, hx, hv⟩ hfree
    exact (h.quantified x σ hx v hv).2 (h.free v (free_iff.mpr hfree))

end Env

namespace Infer

/-- **Hygiene.** The supply never falls.  A run that succeeds mentions no variables but the free ones of
its environment and those that it draws; when the environment is hygienic it mentions none that is
quantified there, and leaves the environment hygienic, without capturing a variable. -/
theorem expr_hygienic {decls : List Decl} {r : Registry} (hbuild : Registry.build decls = .ok r)
    (checkCoverage : Bool) {Γ : Env} {st : InferState} (hΓ : ∀ v ∈ Γ.freeVars, v < st.next) (e : Expr) :
    st.next ≤ ((expr ⟨r, checkCoverage⟩ Γ e).start st).2.next ∧
    ∀ (ty : Typing) (st' : InferState), (expr ⟨r, checkCoverage⟩ Γ e).start st = (.ok ty, st') →
      (∀ v, v ∈ ty.type.vars ∨ ty.subst.Mentions v → v ∈ Γ.freeVars ∨ st.next ≤ v ∧ v < st'.next) ∧
      (Γ.Hygienic st.next →
        (∀ v, Γ.Quantified v → ¬ ty.subst.Mentions v) ∧
        (Γ.apply ty.subst).Hygienic st'.next ∧
        ∀ (x : String) (σ : Scheme), Γ[x]? = some σ → ∀ w,
          w ∈ (σ.apply ty.subst).freeVars ↔ ∃ v ∈ σ.freeVars, w ∈ (ty.subst.image v).vars) := by
  refine ⟨expr_advances _ Γ e st, fun ty st' hrun => ?_⟩
  have htidy := expr_tidy (Registry.build_wellFormed hbuild) e hΓ Γ.freeIn_freeVars hrun
  refine ⟨fun v hv => ?_, fun hclean => ⟨?_, (hclean.clean.apply htidy.threaded).hygienic, ?_⟩⟩
  · rcases hv with hv | hv
    · exact (htidy.within v hv).1
    · exact htidy.threaded.settled.within v hv
  · rintro v ⟨x, σ, hx, hv⟩
    exact hclean.clean.not_mentions htidy.threaded hx v hv
  · intro x σ hx w
    exact Scheme.mem_freeVars_apply (hclean.clean.not_mentions htidy.threaded hx)

/-- The scheme of a function that gives back its argument. -/
def identityScheme : Scheme := ⟨.ofList [(0 : TyVar)], .fn (.var 0) (.var 0)⟩

/-- A function that works at every type, and a value whose type is still open. -/
def openValue : Env := Env.bindTy ((∅ : Env).insert "id" identityScheme) "y" (.var 1)

/-- The content of the open value, passed through the function. -/
def unwrapping : Expr :=
  .matchOn (.var "y") [(.con "Some" [.var "p"], .app (.var "id") (.var "p"))]

theorem openValue_hygienic : openValue.Hygienic 2 := by
  have hfree : ∀ v ∈ openValue.freeVars, v = 1 := by
    intro v hv
    obtain ⟨x, σ, hx, hv⟩ := Env.mem_freeVars.mp hv
    rcases Env.getElem?_insert_iff.mp hx with ⟨-, rfl⟩ | ⟨-, hx⟩
    · simpa [Scheme.mono, Ty.vars] using hv
    · rcases Env.getElem?_insert_iff.mp hx with ⟨-, rfl⟩ | ⟨-, hx⟩
      · obtain ⟨rfl, hne⟩ : v = 0 ∧ ¬ 0 = v := by simpa [identityScheme, Ty.vars] using hv
        exact absurd rfl hne
      · simp at hx
  have hquantified : ∀ v, openValue.Quantified v → v = 0 := by
    rintro v ⟨x, σ, hx, hv⟩
    rcases Env.getElem?_insert_iff.mp hx with ⟨-, rfl⟩ | ⟨-, hx⟩
    · simp [Scheme.mono] at hv
    · rcases Env.getElem?_insert_iff.mp hx with ⟨-, rfl⟩ | ⟨-, hx⟩
      · have h : 0 = v := by simpa [identityScheme] using hv
        exact h.symm
      · simp at hx
  refine ⟨fun v hv => ?_, fun v hv => ?_, fun v hv hv' => ?_⟩
  · rw [hfree v hv]
    decide
  · rw [hquantified v hv]
    decide
  · exact absurd ((hquantified v hv).symm.trans (hfree v hv')) (by decide)

/-- A registry and a run on it, from the evaluation of both. -/
theorem exists_run_of_eval {decls : List Decl} {α β : Type} {x : Registry → Infer α} {st : InferState}
    {f : α → Option β} {b : β}
    (h : ((Registry.build decls).toOption.bind fun r => ((x r).start st).1.toOption).map f =
      some (some b)) :
    ∃ r a st', Registry.build decls = .ok r ∧ (x r).start st = (.ok a, st') ∧ f a = some b := by
  obtain ⟨a, ha, hb⟩ := Option.map_eq_some_iff.mp h
  obtain ⟨r, hr, ha⟩ := Option.bind_eq_some_iff.mp ha
  exact ⟨r, a, _, eq_ok_of_toOption hr, Prod.ext (eq_ok_of_toOption ha) rfl, hb⟩

/-- The type of the value is found out to be that of an option. -/
theorem start_unwrapping :
    ∃ r ty st', Registry.build optionDecls = .ok r ∧
      (expr ⟨r, true⟩ openValue unwrapping).start { next := 2 } = (.ok ty, st') ∧
      ty.subst[(1 : TyVar)]? = some (.sum "Option" [.var 5]) := by
  have hrun : ((Registry.build optionDecls).toOption.bind fun r =>
      ((expr ⟨r, true⟩ openValue unwrapping).start { next := 2 }).1.toOption).map
        (fun ty => ty.subst[(1 : TyVar)]?) = some (some (.sum "Option" [.var 5])) := by cbv
  exact exists_run_of_eval hrun

theorem expr_hygienic_unwrapping :
    ∃ r ty st', Registry.build optionDecls = .ok r ∧
      (expr ⟨r, true⟩ openValue unwrapping).start { next := 2 } = (.ok ty, st') ∧
      ty.subst.Mentions 1 ∧ ¬ ty.subst.Mentions 0 ∧ (openValue.apply ty.subst).Hygienic st'.next := by
  obtain ⟨r, ty, st', hbuild, hrun, hbound⟩ := start_unwrapping
  have hΓ := openValue_hygienic
  have hzero : openValue.Quantified 0 := ⟨"id", identityScheme, rfl, by simp [identityScheme]⟩
  obtain ⟨hquantified, hafter, -⟩ :=
    ((expr_hygienic hbuild true hΓ.free_lt unwrapping).2 ty st' hrun).2 hΓ
  exact ⟨r, ty, st', hbuild, hrun, Or.inl (Subst.mem_of_getElem? hbound), hquantified 0 hzero, hafter⟩

/-! ## Solved form -/

/-- **Solved form.** The substitution that inference gives is idempotent and changes nothing more about
the type; the one of a pattern is idempotent too. -/
theorem infer_solved {decls : List Decl} {r : Registry} (hbuild : Registry.build decls = .ok r) :
    (∀ (checkCoverage : Bool) (Γ : Env) (e : Expr) (st st' : InferState) (ty : Typing),
      (∀ v ∈ Γ.freeVars, v < st.next) →
      (expr ⟨r, checkCoverage⟩ Γ e).start st = (.ok ty, st') →
      ty.subst.Idempotent ∧ ty.subst.apply ty.type = ty.type) ∧
    ∀ (p : Pattern) (t : Ty) (st st' : InferState) (pt : PatternTyping), (∀ v ∈ t.vars, v < st.next) →
      (pattern r p t).start st = (.ok pt, st') → pt.subst.Idempotent := by
  have hr := Registry.build_wellFormed hbuild
  constructor
  · intro checkCoverage Γ e st st' ty hΓ hrun
    have htidy := expr_tidy (c := ⟨r, checkCoverage⟩) hr e hΓ Γ.freeIn_freeVars hrun
    refine ⟨htidy.threaded.settled.idempotent, ?_⟩
    rw [Subst.apply_eq_assign]
    exact Ty.assign_eq_self fun v hv => Subst.image_of_notMem (htidy.within v hv).2
  · intro p t st st' pt ht hrun
    exact (pattern_tidy hr p (W := {v | v ∈ t.vars}) ht (fun v hv => hv) hrun).threaded.settled.idempotent

/-- The pattern of the arm says that a value of unknown type is an option. -/
theorem start_unwrapping_pattern :
    ∃ r pt st', Registry.build optionDecls = .ok r ∧
      (pattern r (.con "Some" [.var "p"]) (.var 0)).start { next := 1 } = (.ok pt, st') ∧
      pt.subst[(0 : TyVar)]? = some (.sum "Option" [.var 1]) := by
  have hrun : ((Registry.build optionDecls).toOption.bind fun r =>
      ((pattern r (.con "Some" [.var "p"]) (.var 0)).start { next := 1 }).1.toOption).map
        (fun pt => pt.subst[(0 : TyVar)]?) = some (some (.sum "Option" [.var 1])) := by cbv
  exact exists_run_of_eval hrun

theorem infer_solved_unwrapping :
    (∃ r ty st', Registry.build optionDecls = .ok r ∧
      (expr ⟨r, true⟩ openValue unwrapping).start { next := 2 } = (.ok ty, st') ∧
      ty.subst.Mentions 1 ∧ ty.subst.Idempotent ∧ ty.subst.apply ty.type = ty.type) ∧
    ∃ r pt st', Registry.build optionDecls = .ok r ∧
      (pattern r (.con "Some" [.var "p"]) (.var 0)).start { next := 1 } = (.ok pt, st') ∧
      pt.subst.Mentions 0 ∧ pt.subst.Idempotent := by
  constructor
  · obtain ⟨r, ty, st', hbuild, hrun, hbound⟩ := start_unwrapping
    have hsolved := (infer_solved hbuild).1 true _ _ _ _ _ openValue_hygienic.free_lt hrun
    exact ⟨r, ty, st', hbuild, hrun, Or.inl (Subst.mem_of_getElem? hbound), hsolved⟩
  · obtain ⟨r, pt, st', hbuild, hrun, hbound⟩ := start_unwrapping_pattern
    have hvars : ∀ v ∈ (Ty.var 0).vars, v < 1 := by
      intro v hv
      rw [Ty.vars, List.mem_singleton] at hv
      rw [hv]
      decide
    have hsolved := (infer_solved hbuild).2 _ _ _ _ _ hvars hrun
    exact ⟨r, pt, st', hbuild, hrun, Or.inl (Subst.mem_of_getElem? hbound), hsolved⟩

end Infer

end Polytype
