/-
# Polytype.Proofs.Reading.Ascription — an ascription reads like the type that it means.

Type expressions and types have printers of their own, which decide separately where parentheses stand.  They meet in
resolution: a type that is written in the notation of the surface language (`Ty.written`) is the type expression that
it came from, with numbers in place of the names of variables (`TypeExpr.Means.written_eq`).  Since a type and its
notation have the same text, so have an ascription and its type, as long as no synonym stands between the two.

Which number stands for which name is what the resolution records, and it records all names of the expression
(`TypeTable.exists_of_mem_varNames`).
-/
import Polytype.Proofs.Reading.Ty
import Polytype.Proofs.Registry.Acceptance
import Polytype.Proofs.Registry.Naming

namespace Polytype

/-! ## Other names for the variables -/

namespace TypeExpr

mutual
/-- The expression with other names for its type variables. -/
def mapVars (f : String → String) : TypeExpr → TypeExpr
  | .con name args => .con name (mapVarsList f args)
  | .var name => .var (f name)
  | .arrow dom cod => .arrow (dom.mapVars f) (cod.mapVars f)
  | .tuple elems => .tuple (mapVarsList f elems)
  | .record fields => .record (mapVarsFields f fields)
/-- Expressions with other names for their type variables. -/
def mapVarsList (f : String → String) : List TypeExpr → List TypeExpr
  | [] => []
  | t :: ts => t.mapVars f :: mapVarsList f ts
/-- Labelled expressions with other names for their type variables. -/
def mapVarsFields (f : String → String) : List (String × TypeExpr) → List (String × TypeExpr)
  | [] => []
  | (l, t) :: fs => (l, t.mapVars f) :: mapVarsFields f fs
end

theorem mapVarsFields_eq (f : String → String) (fs : List (String × TypeExpr)) :
    mapVarsFields f fs = (fs.map Prod.fst).zip (mapVarsList f (fs.map Prod.snd)) := by
  induction fs with
  | nil => rfl
  | cons g fs ih => rw [mapVarsFields, ih, List.map_cons, List.map_cons, mapVarsList, List.zip_cons_cons]

/-- No name of a type in the expression is that of a synonym. -/
def AvoidsSynonyms (table : TypeTable) (e : TypeExpr) : Prop :=
  e.Scoped (fun name _ => table.synonyms[name]? = none) fun _ => True

end TypeExpr

theorem Ty.writtenFields_zip (ls : List String) (ts : List Ty) :
    Ty.writtenFields (ls.zip ts) = ls.zip (Ty.writtenList ts) := by
  rw [Ty.writtenFields_eq, Ty.writtenList_eq, List.zip_map_right]
  rfl

/-! ## Meaning and notation -/

namespace TypeExpr

variable {table : TypeTable} {ρ : String → Ty} {number : String → TyVar}

theorem MeanAll.writtenList_eq {es : List TypeExpr} {ts : List Ty} (h : MeanAll table ρ es ts)
    (ih : ∀ e ∈ es, ∀ {t : Ty}, e.Means table ρ t → (∀ x ∈ e.varNames, ρ x = .var (number x)) →
      t.written = e.mapVars fun x => TyVar.render (number x))
    (hρ : ∀ x ∈ varNamesList es, ρ x = .var (number x)) :
    Ty.writtenList ts = mapVarsList (fun x => TyVar.render (number x)) es := by
  induction es generalizing ts with
  | nil =>
      cases h
      rfl
  | cons e es ihes =>
      rw [varNamesList, List.forall_mem_append] at hρ
      cases h with
      | cons he hes =>
          rw [Ty.writtenList, mapVarsList, ih e List.mem_cons_self he hρ.1,
            ihes hes (fun e' he' => ih e' (List.mem_cons_of_mem e he')) hρ.2]

/-- What an expression means is written like the expression, if its variables stand for numbered ones. -/
theorem Means.written_eq {e : TypeExpr} {t : Ty} (h : e.Means table ρ t) (he : e.AvoidsSynonyms table)
    (hρ : ∀ x ∈ e.varNames, ρ x = .var (number x)) :
    t.written = e.mapVars fun x => TyVar.render (number x) := by
  induction e generalizing t with
  | con name args ih =>
      obtain ⟨hname, hargs⟩ := scoped_con.mp he
      cases h with
      | prim p => rfl
      | synonym hsynonym => cases hname.symm.trans hsynonym
      | sum _ _ hmeans =>
          rw [Ty.written, mapVars, hmeans.writtenList_eq (fun e he _ h => ih e he h (hargs e he)) hρ]
  | var name => cases h with | var => rw [hρ name List.mem_cons_self, Ty.written, mapVars]
  | arrow dom cod ihd ihc =>
      obtain ⟨hdom, hcod⟩ := scoped_arrow.mp he
      rw [varNames, List.forall_mem_append] at hρ
      cases h with
      | arrow hd hc => rw [Ty.written, mapVars, ihd hd hdom hρ.1, ihc hc hcod hρ.2]
  | tuple elems ih =>
      have helems := scoped_tuple.mp he
      cases h with
      | tuple hmeans =>
          rw [Ty.written, mapVars, hmeans.writtenList_eq (fun e he _ h => ih e he h (helems e he)) hρ]
  | record fields ih =>
      have hfields := scoped_record.mp he
      rw [varNames, varNamesFields_eq] at hρ
      cases h with
      | record hmeans =>
          rw [Ty.written, mapVars, Ty.writtenFields_zip, mapVarsFields_eq,
            hmeans.writtenList_eq (List.forall_mem_map.mpr fun f hf _ h => ih f hf h (hfields f hf)) hρ]

end TypeExpr

/-! ## The two texts -/

namespace Registry

/-- **An ascription reads like the type that it means.** If an ascription without synonyms is resolved, then its type
is written like the ascription with every variable replaced by the number that the resolution has recorded for it. -/
theorem render_resolveAscription {decls : List Decl} {r : Registry} (hbuild : build decls = .ok r) {e : TypeExpr}
    (he : e.AvoidsSynonyms r.toTypeTable) {n : TyVar} {t : Ty} {sc : NamedVars}
    (h : Resolve.start (r.resolveAscription e) { vars := ∅, next := n } = (.ok t, sc)) :
    ∃ number : String → TyVar, (∀ x ∈ e.varNames, sc.vars[x]? = some (number x)) ∧
      t.render = (e.mapVars fun x => "t" ++ toString (number x)).render := by
  let number : String → TyVar := fun x => sc.vars[x]?.getD 0
  have hnumber : ∀ {x v}, sc.vars[x]? = some v → number x = v := fun hv => by simp only [number, hv, Option.getD_some]
  have hstart : NamedVars.DrawnFrom n { vars := ∅, next := n } := ⟨Int.le_refl n, fun x v hx => by simp at hx⟩
  have hmeans := (TypeTable.resolveWith_resolvesTo (build_wellFormed hbuild).synonym_closed e hstart h).means .var
    (fun x => .var (number x)) fun x v hv => congrArg Ty.var (hnumber hv)
  rw [Ty.assign_var_self] at hmeans
  refine ⟨number, fun x hx => ?_, ?_⟩
  · obtain ⟨v, hv⟩ := TypeTable.exists_of_mem_varNames e h x hx
    rw [hnumber hv, hv]
  · rw [← Ty.render_written, hmeans.written_eq he fun _ _ => rfl]
    rfl

/-- An ascription in which variables come back, below arrows, named types and fields. -/
def selector : TypeExpr :=
  .arrow (.arrow (.var "key") (.con "Bool" []))
    (.arrow (.con "Option" [.con "Option" [.var "value"]])
      (.record [("found", .tuple [.var "value", .var "key"]), ("rest", .con "Option" [.tuple []])]))

theorem render_resolveAscription_selector :
    ∃ (r : Registry) (t : Ty) (sc : NamedVars), build optionalDecls = .ok r ∧
      selector.AvoidsSynonyms r.toTypeTable ∧
      Resolve.start (r.resolveAscription selector) { vars := ∅, next := 7 } = (.ok t, sc) ∧
      (sc.vars["key"]?, sc.vars["value"]?) = (some 7, some 8) ∧
      t.render = "(t7 -> Bool) -> Option (Option t8) -> \x7bfound: (t8, t7), rest: Option ()\x7d" := by
  have heval : (build optionalDecls).toOption.map (fun r => (r.synonyms["Option"]?, r.synonyms["Bool"]?,
      (Resolve.start (r.resolveAscription selector) { vars := ∅, next := 7 }).1.toOption.isSome,
      (Resolve.start (r.resolveAscription selector) { vars := ∅, next := 7 }).2.vars["key"]?,
      (Resolve.start (r.resolveAscription selector) { vars := ∅, next := 7 }).2.vars["value"]?)) =
        some (none, none, true, some 7, some 8) := rfl
  obtain ⟨r, hopt, hfacts⟩ := Option.map_eq_some_iff.mp heval
  simp only [Prod.mk.injEq] at hfacts
  obtain ⟨hoption, hbool, hrun, hkey, hvalue⟩ := hfacts
  obtain ⟨t, ht⟩ := Option.isSome_iff_exists.mp hrun
  have hbuild := eq_ok_of_toOption hopt
  have havoids : selector.AvoidsSynonyms r.toTypeTable := by
    simp only [getElem?_eq_none_iff] at hoption hbool
    simp [TypeExpr.AvoidsSynonyms, selector, TypeExpr.scoped_arrow, TypeExpr.scoped_con, TypeExpr.scoped_var,
      TypeExpr.scoped_record, TypeExpr.scoped_tuple, hoption, hbool]
  have hstart : Resolve.start (r.resolveAscription selector) { vars := ∅, next := 7 } =
      (.ok t, (Resolve.start (r.resolveAscription selector) { vars := ∅, next := 7 }).2) :=
    Prod.ext (eq_ok_of_toOption ht) rfl
  obtain ⟨number, hnumber, htext⟩ := render_resolveAscription hbuild havoids hstart
  have hk : number "key" = 7 := by
    have := (hnumber "key" (by decide)).symm.trans hkey
    exact Option.some.inj this
  have hv : number "value" = 8 := by
    have := (hnumber "value" (by decide)).symm.trans hvalue
    exact Option.some.inj this
  refine ⟨r, t, _, hbuild, havoids, hstart, by rw [hkey, hvalue], ?_⟩
  rw [htext, selector]
  simp only [TypeExpr.mapVars, TypeExpr.mapVarsList, TypeExpr.mapVarsFields, hk, hv]
  decide

end Registry

end Polytype
