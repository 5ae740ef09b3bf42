/-
# Polytype.Proofs.Inference.Erasure — synonyms are abbreviations.

A program may use synonyms in the fields of its constructors and in its ascriptions.  Written out, and with
their declarations dropped, they leave a program without synonyms (`Program.eraseSynonyms`).  To inference
the two programs are the same: the constructors are (`build_eraseSynonyms`), and ascriptions are read in
lockstep.  So they are accepted with the same scheme and the same warnings, or rejected for the same cause.
Only what is suggested in place of an unknown name may be different, for the synonyms are among the names
that may have been meant.
-/
import Mathlib
import Polytype.Proofs.Inference.Lockstep
import Polytype.Proofs.Registry.Erasure

namespace Polytype

namespace Expr

variable (h : TypeExpr → TypeExpr)

theorem ascriptionsList_map {es : List Expr}
    (ih : ∀ e ∈ es, (e.mapAscriptions h).ascriptions = e.ascriptions.map h) :
    ascriptionsList (es.map (mapAscriptions h)) = (ascriptionsList es).map h := by
  induction es with
  | nil => rfl
  | cons e es ihes =>
      obtain ⟨he, hes⟩ := List.forall_mem_cons.mp ih
      rw [List.map_cons, ascriptionsList, ascriptionsList, he, ihes hes, List.map_append]

theorem ascriptions_mapAscriptions (e : Expr) :
    (e.mapAscriptions h).ascriptions = e.ascriptions.map h := by
  induction e with
  | construct name args ih =>
      rw [mapAscriptions, mapAscriptionsList_eq, ascriptions, ascriptionsList_map h ih, ascriptions]
  | tuple elems ih =>
      rw [mapAscriptions, mapAscriptionsList_eq, ascriptions, ascriptionsList_map h ih, ascriptions]
  | record fields ih =>
      have hlist := ascriptionsList_map h (List.forall_mem_map.mpr ih)
      rw [List.map_map] at hlist
      rw [mapAscriptions, mapAscriptionsFields_eq, ascriptions, ascriptionsFields_eq, List.map_map,
        ascriptions, ascriptionsFields_eq, ← hlist]
      rfl
  | matchOn scrutinee arms ihs ih =>
      have hlist := ascriptionsList_map h (List.forall_mem_map.mpr ih)
      rw [List.map_map] at hlist
      rw [mapAscriptions, mapAscriptionsArms_eq, ascriptions, ascriptionsArms_eq, List.map_map,
        ascriptions, ascriptionsArms_eq, List.map_append, ← hlist, ihs]
      rfl
  | lam param ascription body ih => cases ascription <;> simp_all [mapAscriptions, ascriptions]
  | letIn name ascription value body ihv ihb => cases ascription <;> simp_all [mapAscriptions, ascriptions]
  | letRec name ascription value body ihv ihb => cases ascription <;> simp_all [mapAscriptions, ascriptions]
  | _ => simp_all [mapAscriptions, ascriptions]

end Expr

/-! ## Programs without their synonyms -/

namespace Program

/-- The program with its synonyms written out, and without their declarations. -/
def eraseSynonyms (p : Program) : Program where
  decls := Decl.eraseSynonyms p.decls
  body := p.body.mapAscriptions (TypeExpr.expand (.ofDecls p.decls))

/-- In the ascriptions of the program, synonyms stand without arguments. -/
def AppliesNone (p : Program) : Prop :=
  ∀ t ∈ p.body.ascriptions,
    t.Scoped (fun name count => Decl.Synonym p.decls name → count = 0) fun _ => True

/-- The program neither declares nor mentions types of these names. -/
structure FreeOf (names : String → Prop) (p : Program) : Prop where
  name : ∀ d ∈ p.decls, ¬ names d.name
  field : ∀ d ∈ p.decls, ∀ c ∈ d.constructors, ∀ t ∈ c.fields, t.FreeOf names
  ascription : ∀ t ∈ p.body.ascriptions, t.FreeOf names

end Program

/-! ## Two runs -/

theorem NamedVars.shift_zero : NamedVars.shift 0 = id := by
  funext sc
  have hvars : sc.vars.map (fun _ v => v + 0) = sc.vars :=
    Std.ExtTreeMap.ext_getElem? fun name => by simp
  rw [NamedVars.shift, hvars, Int.add_zero, id_eq]

theorem TypeTable.sequential_lockstep :
    Sequential (m := Resolve) fun _ x y => Lockstep SameFault id id x y where
  pure _ := .pure rfl
  error h := .lift (.error h)
  bind hxy hfg := hxy.bind fun a _ => hfg a

theorem readAlike_expand {x : Expansion} {r r' : Registry} (hr : r.Mirrors x r') {t : TypeExpr}
    (ht : r.toTypeTable.AppliesNone t) : Infer.ReadAlike SameFault 0 r r' (TypeExpr.expand x) t := by
  refine Infer.readAlike_of_resolve ?_
  rw [NamedVars.shift_zero, show Ty.shift 0 = id from funext Ty.shift_zero]
  exact TypeTable.resolveWith_expand TypeTable.sequential_lockstep hr.expands
    (fun v => .refl SameFault.refl _) t ht

theorem InferState.shift_zero : InferState.shift 0 = id := by
  funext st
  rw [InferState.shift, Int.add_zero, id_eq]

theorem Typing.shift_zero : Typing.shift 0 = id := by
  funext ty
  rw [Typing.shift, Subst.shift_zero, Ty.shift_zero, id_eq]

/-- Inference cannot tell the body of a program from the one with the synonyms written out. -/
theorem lockstep_expand {x : Expansion} {r r' : Registry} (hwf : r.WellFormed) (hr : r.Mirrors x r')
    (checkCoverage : Bool) {e : Expr} (he : ∀ t ∈ e.ascriptions, r.toTypeTable.AppliesNone t) :
    Lockstep SameFault id id (Infer.expr ⟨r, checkCoverage⟩ ∅ e)
      (Infer.expr ⟨r', checkCoverage⟩ ∅ (e.mapAscriptions (TypeExpr.expand x))) := by
  have halike : Infer.Alike SameFault 0 r r' :=
    ⟨fun err => by rw [err.shift_zero]; rfl, hr.constructors_eq, hwf.field_vars⟩
  rw [← InferState.shift_zero, ← Typing.shift_zero]
  exact halike.expr_lockstep e (fun t ht => readAlike_expand hr (he t ht)) Env.shift_empty.symm

/-- Two programs have the same outcome, if their bodies do. -/
theorem typecheck_sameOutcome {p p' : Program} {r r' : Registry} {options : Options}
    (hbuild : Registry.build p.decls = .ok r) (hbuild' : Registry.build p'.decls = .ok r')
    (h : Lockstep SameFault id id (Infer.expr ⟨r, options.checkCoverage⟩ ∅ p.body)
      (Infer.expr ⟨r', options.checkCoverage⟩ ∅ p'.body)) :
    SameOutcome SameFault id (typecheck p options) (typecheck p' options) := by
  obtain ⟨hout, hstate⟩ := h {}
  rcases hrun : (Infer.expr ⟨r, options.checkCoverage⟩ ∅ p.body).run.run {} with ⟨res, st⟩
  rcases hrun' : (Infer.expr ⟨r', options.checkCoverage⟩ ∅ p'.body).run.run (id {}) with ⟨res', st'⟩
  rw [hrun, hrun'] at hout hstate
  obtain rfl : st' = st := hstate
  cases hout with
  | ok ty =>
      rw [typecheck_ok.mpr ⟨r, hbuild, ty, st', hrun, rfl⟩,
        typecheck_ok.mpr ⟨r', hbuild', ty, st', hrun', rfl⟩]
      exact .ok _
  | error h =>
      rw [typecheck_of_expr_error hbuild hrun, typecheck_of_expr_error hbuild' hrun']
      exact .error h

section Programs

variable {p : Program} {r : Registry} (hbuild : Registry.build p.decls = .ok r)
include hbuild

theorem Program.AppliesNone.ascription (h : p.AppliesNone) {t : TypeExpr} (ht : t ∈ p.body.ascriptions) :
    r.toTypeTable.AppliesNone t := by
  refine (h t ht).mono (fun name count hcount hmem => ?_) fun _ hx => hx
  exact hcount (((Registry.build_reads hbuild).mem_synonyms name).mp hmem)

/-- The program without synonyms does not mention any. -/
theorem Program.freeOf_eraseSynonyms (h : p.AppliesNone) :
    p.eraseSynonyms.FreeOf (Decl.Synonym p.decls) := by
  obtain ⟨r', -, hr⟩ := Registry.build_eraseSynonyms hbuild
  have hreads := Registry.build_reads hbuild
  have hfree : ∀ {t : TypeExpr}, r.toTypeTable.AppliesNone t →
      (t.expand (.ofDecls p.decls)).FreeOf (Decl.Synonym p.decls) := by
    intro t ht
    refine (hr.expands.freeOf_expand (Registry.build_wellFormed hbuild).sum_not_synonym ht).mono ?_
      fun _ hx => hx
    exact fun name _ hname hsyn => hname ((hreads.mem_synonyms name).mpr hsyn)
  have hwf := (Registry.exists_build_iff p.decls).mp ⟨r, hbuild⟩
  have hprim := fun d hd => named?_eq_none_iff.mpr (hwf.name_not_prim d hd)
  refine ⟨fun d' hd' => ?_, fun d' hd' c' hc' t' ht' => ?_, fun t' ht' => ?_⟩
  · -- a sum that is left would have to be declared as a synonym as well
    obtain ⟨name, params, constructors, hd, rfl⟩ := Decl.mem_eraseSynonyms.mp hd'
    rintro ⟨target, hsyn⟩
    exact absurd (decl_eq_of_name hwf.names_nodup hd hsyn rfl) (by simp)
  · obtain ⟨name, params, constructors, hd, rfl⟩ := Decl.mem_eraseSynonyms.mp hd'
    obtain ⟨c, hc, rfl⟩ := List.mem_map.mp hc'
    obtain ⟨t, ht, rfl⟩ := List.mem_map.mp ht'
    -- that fields give synonyms no arguments has been checked with the declarations
    refine hfree (TypeTable.appliesNone_of_scoped ((hwf.field_scoped _ hd c hc t ht).mono ?_ fun _ h => h))
    exact fun _ _ => (hreads.knows_iff (List.Subset.refl _) hwf.names_nodup hprim).mpr
  · rw [Program.eraseSynonyms, Expr.ascriptions_mapAscriptions] at ht'
    obtain ⟨t, ht, rfl⟩ := List.mem_map.mp ht'
    exact hfree (h.ascription hbuild ht)

end Programs

/-- **Synonyms are abbreviations.** A program whose declarations are accepted, and which gives no synonym any
arguments, has the same outcome as the program without synonyms: the same scheme, hence the same text, and
the same warnings, or an error of the same cause. -/
theorem typecheck_eraseSynonyms (p : Program) (options : Options)
    (hbuild : ∃ r, Registry.build p.decls = .ok r) (happlies : p.AppliesNone) :
    p.eraseSynonyms.FreeOf (Decl.Synonym p.decls) ∧
      SameOutcome SameFault id (typecheck p options) (typecheck p.eraseSynonyms options) := by
  obtain ⟨r, hbuild⟩ := hbuild
  obtain ⟨r', hbuild', hr⟩ := Registry.build_eraseSynonyms hbuild
  refine ⟨Program.freeOf_eraseSynonyms hbuild happlies, typecheck_sameOutcome hbuild hbuild' ?_⟩
  exact lockstep_expand (Registry.build_wellFormed hbuild) hr options.checkCoverage
    fun t ht => happlies.ascription hbuild ht

/-- A box holds a value and a pair; pairs are a synonym, and so is what they are made of. -/
def boxing : Program where
  decls := [.synonym "Cell" (.con "Int" []), .synonym "Pair" (.tuple [.con "Cell" [], .con "Char" []]),
    .sum "Box" ["a"] [⟨"Pack", [.var "a", .con "Pair" []]⟩]]
  body := .lam "p" (some (.con "Pair" [])) (.construct "Pack" [.proj (.var "p") 0, .var "p"])

theorem typecheck_eraseSynonyms_boxing :
    (∃ r, Registry.build boxing.decls = .ok r) ∧ boxing.AppliesNone ∧
      boxing.eraseSynonyms.FreeOf (Decl.Synonym boxing.decls) ∧
      ∃ checked, typecheck boxing {} = .ok checked ∧ typecheck boxing.eraseSynonyms {} = .ok checked ∧
        checked.rendered = "(Int, Char) -> Box Int" ∧ checked.warnings = [] := by
  have heval : (Registry.build boxing.decls).toOption.isSome = true := rfl
  obtain ⟨r, hopt⟩ := Option.isSome_iff_exists.mp heval
  have hbuild : ∃ r, Registry.build boxing.decls = .ok r := ⟨r, eq_ok_of_toOption hopt⟩
  have happlies : boxing.AppliesNone := by
    intro t ht
    obtain rfl : t = .con "Pair" [] := by simpa [boxing, Expr.ascriptions, Expr.ascriptionsList] using ht
    exact .con (fun _ => rfl) (by simp)
  have hrun : (typecheck boxing {}).toOption.map (fun checked => (checked.rendered, checked.warnings)) =
      some ("(Int, Char) -> Box Int", []) := by cbv
  obtain ⟨checked, hchecked, hfacts⟩ := Option.map_eq_some_iff.mp hrun
  obtain ⟨htext, hwarnings⟩ := Prod.mk.inj hfacts
  have hchecked := eq_ok_of_toOption hchecked
  obtain ⟨hfree, hsame⟩ := typecheck_eraseSynonyms boxing {} hbuild happlies
  exact ⟨hbuild, happlies, hfree, checked, hchecked, hsame.eq_ok hchecked, htext, hwarnings⟩

end Polytype
