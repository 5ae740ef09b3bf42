/-
# Polytype.Proofs.Registry.Reordering — the order of declarations.

A sum type may be used before it is declared, and so may a synonym in the fields of constructors; only the
targets of synonyms look back.  So declarations may be put in another order as long as the synonyms stay in
theirs (`Decl.Reorders`), and the registry is the same.

Each of the three passes has its own reason.  The first asks whether names are distinct.  The second starts
from the table of all sums, and steps over their declarations (`foldlM_addSynonym_eq`), so that it is the same
computation for both lists.  The third meets the constructors in another order, but every name is inserted
once, with an entry that depends on the finished table only.
-/
import Polytype.Proofs.Registry.Contents
import Polytype.Typecheck

namespace Polytype

namespace Decl

/-- Whether the declaration is that of a synonym. -/
def isSynonym : Decl → Bool
  | .sum _ _ _ => false
  | .synonym _ _ => true

/-- The lists have the same declarations, and the synonyms among them are in the same order. -/
structure Reorders (decls decls' : List Decl) : Prop where
  perm : decls.Perm decls'
  synonyms_eq : decls.filter isSynonym = decls'.filter isSynonym

theorem Reorders.symm {decls decls' : List Decl} (h : Reorders decls decls') : Reorders decls' decls :=
  ⟨h.perm.symm, h.synonyms_eq.symm⟩

theorem constructorNames_perm {decls decls' : List Decl} (h : decls.Perm decls') :
    (constructorNames decls).Perm (constructorNames decls') :=
  h.flatMap_right _

end Decl

/-! ## The three passes -/

theorem Introduced.exists_ofDecls_of_perm {decls decls' : List Decl} (h : decls.Perm decls')
    (hseen : ∃ seen, Introduced.ofDecls decls = .ok seen) :
    ∃ seen', Introduced.ofDecls decls' = .ok seen' := by
  obtain ⟨hnames, hdecls, hconstructors⟩ := exists_foldlM_addDecl_iff.mp hseen
  refine exists_foldlM_addDecl_iff.mpr ⟨⟨?_, by simp⟩, fun d hd => hdecls d (h.mem_iff.mpr hd), ?_, by simp⟩
  · exact (h.map Decl.name).nodup_iff.mp hnames.1
  · exact (Decl.constructorNames_perm h).nodup_iff.mp hconstructors.1

namespace TypeTable

theorem ofSums_eq_of_perm {decls decls' : List Decl} (h : decls.Perm decls')
    (hnames : (decls.map Decl.name).Nodup) : ofSums decls = ofSums decls' := by
  have hsums : (ofSums decls).sums = (ofSums decls').sums := by
    refine Std.ExtTreeMap.ext_getElem? fun name => Option.ext fun info => ?_
    rw [getElem?_ofSums hnames, getElem?_ofSums ((h.map Decl.name).nodup_iff.mp hnames)]
    simp only [h.mem_iff]
  simpa [ofSums] using hsums

/-- The second pass steps over the declarations of sums. -/
theorem foldlM_addSynonym_eq (decls : List Decl) (table : TypeTable) :
    decls.foldlM addSynonym table = (decls.filter Decl.isSynonym).foldlM addSynonym table := by
  induction decls generalizing table with
  | nil => rfl
  | cons d decls ih =>
      cases d with
      | sum name params constructors => exact ih table
      | synonym name target =>
          rw [List.filter_cons_of_pos rfl, List.foldlM_cons, List.foldlM_cons]
          exact bind_congr ih

end TypeTable

namespace Registry

variable {decls decls' : List Decl} {r : Registry}

theorem ext_of_holds {r' : Registry} (h : Holds decls r) (h' : Holds decls' r') (hperm : decls.Perm decls')
    (htable : r.toTypeTable = r'.toTypeTable) : r = r' := by
  have hconstructors : r.constructors = r'.constructors := by
    refine Std.ExtTreeMap.ext_getElem? fun name => Option.ext fun info => ?_
    rw [h.constructors_iff, h'.constructors_iff, htable]
    simp only [hperm.mem_iff]
  cases r
  cases r'
  cases htable
  cases hconstructors
  rfl

theorem build_of_reorders (h : Decl.Reorders decls decls') (hbuild : build decls = .ok r) :
    build decls' = .ok r := by
  have hholds := build_holds hbuild
  rw [build] at hbuild
  simp only [bind_eq_ok_iff] at hbuild
  obtain ⟨seen, hseen, table, htable, hr⟩ := hbuild
  obtain ⟨seen', hseen'⟩ := Introduced.exists_ofDecls_of_perm h.perm ⟨seen, hseen⟩
  have htable' : decls'.foldlM TypeTable.addSynonym (.ofSums decls') = .ok table := by
    rw [← TypeTable.ofSums_eq_of_perm h.perm hholds.wellFormed.names_nodup,
      TypeTable.foldlM_addSynonym_eq, ← h.synonyms_eq, ← TypeTable.foldlM_addSynonym_eq]
    exact htable
  obtain ⟨r', hr'⟩ : ∃ r', decls'.foldlM addConstructors { table with } = .ok r' :=
    (exists_foldlM_addConstructors_iff rfl).mpr fun d hd =>
      (exists_foldlM_addConstructors_iff rfl).mp ⟨r, hr⟩ d (h.perm.mem_iff.mpr hd)
  have hbuild' : build decls' = .ok r' := by
    rw [build]
    simp only [bind_eq_ok_iff]
    exact ⟨seen', hseen', table, htable', hr'⟩
  have htables := (foldlM_addConstructors_table hr).trans (foldlM_addConstructors_table hr').symm
  rw [ext_of_holds hholds (build_holds hbuild') h.perm htables]
  exact hbuild'

/-! ## Programs -/

/-- **The order of sum types does not matter.** Declarations that differ in it are both accepted, with the
same registry, or both rejected; where they are accepted every program is checked with the same outcome. -/
theorem build_reorder (h : Decl.Reorders decls decls') :
    (∀ r, build decls = .ok r ↔ build decls' = .ok r) ∧
      ∀ r, build decls = .ok r → ∀ (body : Expr) (options : Options),
        typecheck ⟨decls, body⟩ options = typecheck ⟨decls', body⟩ options := by
  refine ⟨fun r => ⟨build_of_reorders h, build_of_reorders h.symm⟩, fun r hr body options => ?_⟩
  rw [typecheck, typecheck, hr, build_of_reorders h hr]

/-- A synonym may stand after the type that uses it, and a sum type after the synonym of it. -/
def orchardDecls : List Decl :=
  [.sum "Tree" ["a"] [⟨"Leaf", []⟩, ⟨"Node", [.var "a", .con "Label" [], .con "Forest" [.var "a"]]⟩],
    .synonym "Label" (.tuple [.con "Int" [], .con "Char" []]),
    .synonym "Orchard" (.con "Forest" [.con "Label" []]),
    .sum "Forest" ["a"] [⟨"Empty", []⟩, ⟨"Grow", [.con "Tree" [.var "a"], .con "Forest" [.var "a"]]⟩]]

theorem build_reorder_orchard :
    ∃ r, build orchardDecls = .ok r ∧ build orchardDecls.rotateRight = .ok r ∧
      ∀ (body : Expr) (options : Options),
        typecheck ⟨orchardDecls, body⟩ options = typecheck ⟨orchardDecls.rotateRight, body⟩ options := by
  have hreorders : Decl.Reorders orchardDecls orchardDecls.rotateRight :=
    ⟨@List.perm_append_comm _ (orchardDecls.take 3) (orchardDecls.drop 3), rfl⟩
  have hsome : (build orchardDecls).toOption.isSome = true := rfl
  obtain ⟨r, hr⟩ := Option.isSome_iff_exists.mp hsome
  have hbuild := eq_ok_of_toOption hr
  obtain ⟨hiff, hcheck⟩ := build_reorder hreorders
  exact ⟨r, hbuild, (hiff r).mp hbuild, hcheck r hbuild⟩

end Registry

end Polytype
