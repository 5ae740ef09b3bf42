/-
# Polytype.Proofs.Inference.Renumbering — where the numbers of type variables start does not matter.

Inference draws its variables from a supply that goes up by one each time.  Started further on, it draws
variables that are further on by the same amount, and does the same with them: so two runs on one expression
go in lockstep (`Lockstep`), and their outcomes differ in the numbers of the variables alone.  What is left
to show for this is that ascriptions are read in lockstep.  Their variables are drawn like all others, and
the types that synonyms stand for have none.
-/
import Mathlib
import Polytype.Proofs.Inference.Lockstep
import Polytype.Proofs.Registry.Contents

namespace Polytype

namespace Expr

theorem mapAscriptions_id (e : Expr) : e.mapAscriptions id = e := by
  induction e with
  | construct name args ih =>
      rw [mapAscriptions, mapAscriptionsList_eq, List.map_congr_left ih, List.map_id']
  | tuple elems ih => rw [mapAscriptions, mapAscriptionsList_eq, List.map_congr_left ih, List.map_id']
  | record fields ih =>
      rw [mapAscriptions, mapAscriptionsFields_eq]
      refine congrArg Expr.record ((List.map_congr_left fun f hf => ?_).trans (List.map_id' fields))
      rw [ih f hf]
  | matchOn scrutinee arms ihs ih =>
      rw [mapAscriptions, mapAscriptionsArms_eq, ihs]
      refine congrArg (Expr.matchOn scrutinee)
        ((List.map_congr_left fun arm harm => ?_).trans (List.map_id' arms))
      rw [ih arm harm]
  | _ => simp_all [mapAscriptions]

end Expr

/-! ## Ascriptions -/

section Ascriptions

variable {E : TypeError → TypeError → Prop} {d : TyVar} {table : TypeTable}

/-- Faults of declarations do not speak about type variables. -/
theorem TypeError.shift_ofDeclarations {e : TypeError} (h : e.fault.OfDeclarations) : e.shift d = e := by
  obtain ⟨fault, nearest⟩ := e
  cases h <;> rfl

theorem NamedVars.shift_draw (sc : NamedVars) (name : String) :
    (sc.draw name).shift d = (sc.shift d).draw name := by
  have hvars : (sc.draw name).vars.map (fun _ v => v + d) = ((sc.shift d).draw name).vars := by
    refine Std.ExtTreeMap.ext_getElem? fun x => ?_
    rw [getElem?_draw, Std.ExtTreeMap.getElem?_map, getElem?_draw, shift, Std.ExtTreeMap.getElem?_map]
    split <;> rfl
  rw [shift, hvars, draw, draw, shift, Int.add_right_comm]

theorem NamedVars.ofName_lockstep (name : String) :
    Lockstep E (NamedVars.shift d) (Ty.shift d) (ofName name) (ofName name) := by
  intro sc
  have hvars : (sc.shift d).vars[name]? = sc.vars[name]?.map (· + d) := by
    rw [shift, Std.ExtTreeMap.getElem?_map]
  show SameOutcome E (Ty.shift d) (Resolve.start (ofName name) sc).1
      (Resolve.start (ofName name) (sc.shift d)).1 ∧
    (Resolve.start (ofName name) (sc.shift d)).2 = (Resolve.start (ofName name) sc).2.shift d
  rw [start_ofName, start_ofName, hvars]
  cases sc.vars[name]? with
  | some v => exact ⟨.ok (Ty.var v), rfl⟩
  -- a name that has not been met stands for the next variable of its run
  | none => exact ⟨.ok (Ty.var sc.next), (shift_draw sc name).symm⟩

namespace TypeTable

theorem denote_sameOutcome (hE : ∀ e, E e (e.shift d)) (name : String) (count : Nat) :
    SameOutcome E id (table.denote name count) (table.denote name count) := by
  refine .refl fun e he => ?_
  have hself := hE e
  rwa [TypeError.shift_ofDeclarations (FailsOnDeclarations.denote table name count e he)] at hself

theorem resolveList_lockstep {es : List TypeExpr}
    (ih : ∀ e ∈ es, Lockstep E (NamedVars.shift d) (Ty.shift d)
      (table.resolveWith NamedVars.ofName e) (table.resolveWith NamedVars.ofName e)) :
    Lockstep E (NamedVars.shift d) (List.map (Ty.shift d))
      (table.resolveList NamedVars.ofName es) (table.resolveList NamedVars.ofName es) := by
  induction es with
  | nil => exact .pure rfl
  | cons e es ihes =>
      rw [resolveList]
      refine Lockstep.bind (ih e List.mem_cons_self) fun t _ => ?_
      have ih' := fun e' he' => ih e' (List.mem_cons_of_mem e he')
      exact Lockstep.bind (ihes ih') fun ts _ => .pure rfl

theorem resolveWith_lockstep (hc : table.Closed) (hE : ∀ e, E e (e.shift d)) (e : TypeExpr) :
    Lockstep E (NamedVars.shift d) (Ty.shift d)
      (table.resolveWith NamedVars.ofName e) (table.resolveWith NamedVars.ofName e) := by
  induction e with
  | con name args ih =>
      rw [resolveWith]
      refine Lockstep.bind (Lockstep.lift (denote_sameOutcome hE name args.length)) ?_
      rintro den ⟨sc, sc', hden⟩
      cases den with
      | closed t =>
          -- what a primitive or a synonym stands for has no variables to shift
          have hclosed := (denote_closed (Resolve.start_lift_ok.mp hden).1).2
          exact .pure (Ty.shift_of_vars_nil (closed?_vars hc hclosed)).symm
      | sum => exact Lockstep.bind (resolveList_lockstep ih) fun ts _ => .pure (Ty.shift_sum _ _).symm
  | var name => exact NamedVars.ofName_lockstep name
  | arrow dom cod ihd ihc =>
      rw [resolveWith]
      exact Lockstep.bind ihd fun a _ => Lockstep.bind ihc fun b _ => .pure rfl
  | tuple elems ih =>
      rw [resolveWith]
      exact Lockstep.bind (resolveList_lockstep ih) fun ts _ => .pure (Ty.shift_tuple _).symm
  | record fields ih =>
      have hlist := resolveList_lockstep (List.forall_mem_map.mpr ih)
      rw [resolveWith, resolveFields_eq]
      refine Lockstep.bind (hlist.map fun ts => ?_) fun fs _ => .pure (Ty.shift_record fs).symm
      rw [List.zip_map_right]
      rfl

end TypeTable

end Ascriptions

namespace Infer

/-- Inference on an expression in the empty environment, when `n` is the next variable. -/
def runFrom (c : InferContext) (e : Expr) (warnings : List Diagnostic) (n : TyVar) :
    Except TypeError Typing × InferState :=
  (expr c ∅ e).start { next := n, warnings }

/-- **The numbers of type variables carry no meaning.** Started at `m` and at `n`, inference on an expression
has the same outcome up to adding `n - m` to every type variable: results that correspond, or errors of
the same kind about types that correspond.  It draws equally many variables and warns about the same. -/
theorem runFrom_correspond {decls : List Decl} {r : Registry} (hbuild : Registry.build decls = .ok r)
    (checkCoverage : Bool) (e : Expr) (warnings : List Diagnostic) (m n : TyVar) :
    SameOutcome (fun err err' => err' = err.shift (n - m)) (Typing.shift (n - m))
        (runFrom ⟨r, checkCoverage⟩ e warnings m).1 (runFrom ⟨r, checkCoverage⟩ e warnings n).1 ∧
      (runFrom ⟨r, checkCoverage⟩ e warnings n).2.next - n =
        (runFrom ⟨r, checkCoverage⟩ e warnings m).2.next - m ∧
      (runFrom ⟨r, checkCoverage⟩ e warnings n).2.warnings =
        (runFrom ⟨r, checkCoverage⟩ e warnings m).2.warnings := by
  have hwf := Registry.build_wellFormed hbuild
  let E (err err' : TypeError) : Prop := err' = err.shift (n - m)
  have hE : ∀ err, E err (err.shift (n - m)) := fun _ => rfl
  have hr : Alike E (n - m) r r := ⟨hE, rfl, hwf.field_vars⟩
  have hread : ∀ t ∈ e.ascriptions, ReadAlike E (n - m) r r id t := fun t _ =>
    readAlike_of_resolve (TypeTable.resolveWith_lockstep hwf.synonym_closed hE t)
  have hstart : InferState.shift (n - m) { next := m, warnings } = { next := n, warnings } := by
    rw [InferState.shift, show m + (n - m) = n by lia]
  obtain ⟨hout, hstate⟩ := hr.expr_lockstep e hread Env.shift_empty.symm { next := m, warnings }
  rw [hstart, Expr.mapAscriptions_id] at hout hstate
  have hlast : (runFrom ⟨r, checkCoverage⟩ e warnings n).2 =
      (runFrom ⟨r, checkCoverage⟩ e warnings m).2.shift (n - m) := hstate
  refine ⟨hout, ?_, ?_⟩
  · rw [hlast, InferState.shift]
    lia
  · rw [hlast, InferState.shift]

/-- Reads the label of a tree, and leaves out the empty tree. -/
def labelOf : Expr :=
  .lam "t" (some (.con "Tree" [.var "b"]))
    (.matchOn (.var "t") [(.con "Node" [.wildcard, .var "label", .wildcard], .var "label")])

theorem runFrom_correspond_labelOf :
    ∃ (r : Registry) (ty : Typing), Registry.build Registry.forestDecls = .ok r ∧
      (runFrom ⟨r, true⟩ labelOf [] 0).1 = .ok ty ∧
      ty.type = .fn (.sum "Tree" [.var 2]) (.tuple [.int, .char]) ∧
      (runFrom ⟨r, true⟩ labelOf [] 7).1 = .ok (ty.shift 7) ∧
      (runFrom ⟨r, true⟩ labelOf [] 0).2.next = 3 ∧ (runFrom ⟨r, true⟩ labelOf [] 7).2.next = 10 ∧
      (runFrom ⟨r, true⟩ labelOf [] 7).2.warnings.map (·.missing) = [["Leaf"]] := by
  have heval : (Registry.build Registry.forestDecls).toOption.map (fun r =>
      ((runFrom ⟨r, true⟩ labelOf [] 0).1.toOption.map (·.type), (runFrom ⟨r, true⟩ labelOf [] 0).2.next,
        (runFrom ⟨r, true⟩ labelOf [] 0).2.warnings.map (·.missing))) =
      some (some (.fn (.sum "Tree" [.var 2]) (.tuple [.int, .char])), 3, [["Leaf"]]) := by cbv
  obtain ⟨r, hopt, hfacts⟩ := Option.map_eq_some_iff.mp heval
  simp only [Prod.mk.injEq] at hfacts
  obtain ⟨htype, hnext, hwarnings⟩ := hfacts
  obtain ⟨ty, hty, htype⟩ := Option.map_eq_some_iff.mp htype
  have hbuild := eq_ok_of_toOption hopt
  have hrun := eq_ok_of_toOption hty
  obtain ⟨hout, hdrawn, hwarned⟩ := runFrom_correspond hbuild true labelOf [] 0 7
  refine ⟨r, ty, hbuild, hrun, htype, hout.eq_ok hrun, hnext, ?_, by rw [hwarned, hwarnings]⟩
  rw [hnext] at hdrawn
  lia

end Infer

end Polytype
