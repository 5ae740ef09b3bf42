/-
# Polytype.Proofs.Inference.Noninterference — checking coverage changes nothing but the warnings.

The coverage check runs in the middle of inference, on the same state, and it can fail: it looks up
constructors by name, at every depth of the patterns.  Were it to fail once, switching it on would turn an
accepted program into a rejected one, or one error into another.  It never does, because a match is
checked after its patterns have been typed, and a typed pattern is known to the registry
(`pattern_known`, `missingCases_total`).

So a run that checks coverage and one that does not go side by side (`Agree`): from states with the same
supply they give the same result, or the same error, and leave the same supply.
-/
import Polytype.Proofs.Inference.Warnings

namespace Polytype

namespace Infer

variable {r : Registry}

/-- From states with the same supply the two computations give the same result and leave the same
supply. -/
def Agree ⦃α : Type⦄ (x y : Infer α) : Prop :=
  ∀ st st₀, st.next = st₀.next →
    (x.start st).1 = (y.start st₀).1 ∧ (x.start st).2.next = (y.start st₀).2.next

theorem Agree.bind {α β : Type} {x y : Infer α} {f g : α → Infer β} (hxy : Agree x y)
    (hfg : ∀ a, x.Gives a → Agree (f a) (g a)) : Agree (x >>= f) (y >>= g) := by
  intro st st₀ hst
  obtain ⟨hres, hnext⟩ := hxy st st₀ hst
  rw [start_bind, start_bind]
  rcases hx : x.start st with ⟨res, st'⟩
  rcases hy : y.start st₀ with ⟨res₀, st₀'⟩
  rw [hx, hy] at hres hnext
  cases hres
  cases res with
  | error e => exact ⟨rfl, hnext⟩
  | ok a => exact hfg a ⟨st, st', hx⟩ st' st₀' hnext

theorem coverage_agree {ps : List Pattern} (h : Coverage.AllKnown r ps) :
    Agree (coverage ⟨r, true⟩ ps) (coverage ⟨r, false⟩ ps) := by
  intro st st₀ hst
  obtain ⟨missing, hmissing⟩ := Coverage.missingCases_total h
  constructor
  · rw [start_coverage, start_coverage, if_pos rfl, hmissing]
    rfl
  · rw [next_start_coverage, next_start_coverage, hst]

/-- Inference with the check and inference without it agree. -/
theorem respected_agree (r : Registry) : Respected r true false Agree where
  lift _ _ _ hst := ⟨rfl, hst⟩
  bind := Agree.bind
  freshBlock k _ _ hst := ⟨congrArg Except.ok hst, congrArg (· + (k : TyVar)) hst⟩
  ascribed e st st₀ hst := by
    rw [start_ascribed, start_ascribed, hst]
    exact ⟨rfl, rfl⟩
  coverage _ h := coverage_agree h

/-- The two runs on an expression, of which the one without the check adds no warnings. -/
theorem expr_agree (r : Registry) (Γ : Env) (e : Expr) (st : InferState) :
    ∃ res st₁ st₂, (expr ⟨r, true⟩ Γ e).start st = (res, st₁) ∧
      (expr ⟨r, false⟩ Γ e).start st = (res, st₂) ∧ st₂.warnings = st.warnings := by
  obtain ⟨hres, -⟩ := (respected_agree r).expr_respects e Γ st st rfl
  have hquiet := (quiet r).expr_respects e Γ st
  rcases hfull : (expr ⟨r, true⟩ Γ e).start st with ⟨res, st₁⟩
  rcases hplain : (expr ⟨r, false⟩ Γ e).start st with ⟨res', st₂⟩
  rw [hplain] at hquiet
  rw [hfull, hplain] at hres
  cases hres
  exact ⟨res, st₁, st₂, rfl, rfl, hquiet⟩

end Infer

/-- **The check does not interfere.** With and without it a program is rejected with the same error, or
accepted with the same scheme and text, and without it there are no warnings.  The check itself never fails
on patterns that have been typed. -/
theorem typecheck_coverage_independent (p : Program) (options : Options) :
    ((∃ e, typecheck p { options with checkCoverage := true } = .error e ∧
        typecheck p { options with checkCoverage := false } = .error e) ∨
      ∃ full plain, typecheck p { options with checkCoverage := true } = .ok full ∧
        typecheck p { options with checkCoverage := false } = .ok plain ∧
        full.scheme = plain.scheme ∧ full.rendered = plain.rendered ∧ plain.warnings = []) ∧
    ∀ (r : Registry) (ps : List Pattern), (∀ q ∈ ps, ∃ t pt, (Infer.pattern r q t).Gives pt) →
      ∃ missing, Coverage.missingCases r ps = .ok missing := by
  constructor
  · cases hbuild : Registry.build p.decls with
    | error e =>
        exact Or.inl ⟨e, typecheck_of_build_error hbuild _, typecheck_of_build_error hbuild _⟩
    | ok r =>
        obtain ⟨res, st₁, st₂, hfull, hplain, hquiet⟩ := Infer.expr_agree r ∅ p.body {}
        cases res with
        | error e =>
            refine Or.inl ⟨e, ?_, ?_⟩
            · exact typecheck_of_expr_error hbuild hfull
            · exact typecheck_of_expr_error hbuild hplain
        | ok ty =>
            exact Or.inr ⟨_, _, typecheck_ok.mpr ⟨r, hbuild, ty, st₁, hfull, rfl⟩,
              typecheck_ok.mpr ⟨r, hbuild, ty, st₂, hplain, rfl⟩, rfl, rfl, hquiet⟩
  · intro r ps hps
    refine Coverage.missingCases_total fun q hq => ?_
    obtain ⟨t, pt, st, st', hrun⟩ := hps q hq
    exact Infer.pattern_known q hrun

end Polytype
