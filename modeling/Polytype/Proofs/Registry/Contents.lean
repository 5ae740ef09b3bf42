/-
# Polytype.Proofs.Registry.Contents — what a registry holds.

An accepted list of declarations determines its registry.  The sums are the declared ones, and the
constructors are those of the declared types, each with the entry that its own declaration gives it
(`EntryOf`, `build_holds`): since no name is introduced twice, no entry is overwritten.

From this follows how the three maps fit together (`ConstructorInfo.Coherent`).  A constructor belongs to one
type, and its siblings and parameters are those of that type; its fields mention no variables but the
parameters, and no sums but declared ones with all their arguments (`Ty.Declared`).  So an instance of a
constructor takes one new variable for each parameter and mentions no others.
-/
import Polytype.Proofs.Inference.Drawing
import Polytype.Proofs.Registry.Acceptance

namespace Polytype

/-! ## Types that mention declared sums only -/

namespace Ty

/-- The first type is a part of the second one. -/
inductive PartOf (u : Ty) : Ty → Prop
  | refl : PartOf u u
  | child {t c : Ty} : c ∈ t.children → PartOf u c → PartOf u t

/-- Every sum in the type is one of those declared, and has as many arguments as it has parameters. -/
def Declared (sums : Std.ExtTreeMap String SumInfo) (t : Ty) : Prop :=
  ∀ (name : String) (ts : List Ty), (Ty.sum name ts).PartOf t →
    ∃ info : SumInfo, sums[name]? = some info ∧ ts.length = info.params.length

theorem declared_of_children {sums : Std.ExtTreeMap String SumInfo} {t : Ty}
    (hchildren : ∀ c ∈ t.children, c.Declared sums)
    (hsum : ∀ (name : String) (ts : List Ty), t = .sum name ts →
      ∃ info : SumInfo, sums[name]? = some info ∧ ts.length = info.params.length) :
    t.Declared sums := by
  intro name ts hpart
  cases hpart with
  | refl => exact hsum name ts rfl
  | child hc hpart => exact hchildren _ hc name ts hpart

theorem declared_prim (sums : Std.ExtTreeMap String SumInfo) (p : Prim) : (Ty.prim p).Declared sums :=
  declared_of_children (by simp [children]) (by simp)

theorem declared_var (sums : Std.ExtTreeMap String SumInfo) (v : TyVar) : (Ty.var v).Declared sums :=
  declared_of_children (by simp [children]) (by simp)

end Ty

namespace TypeTable

variable {table table' : TypeTable}

/-- The targets of all synonyms mention declared sums only. -/
def TargetsDeclared (table : TypeTable) : Prop :=
  ∀ (name : String) (t : Ty), table.synonyms[name]? = some t → t.Declared table.sums

theorem resolveWith_declared {onVar : String → Except TypeError Ty} (htable : table.TargetsDeclared)
    (hvar : ∀ (x : String) (t : Ty), onVar x = .ok t → t.Declared table.sums) (e : TypeExpr) {t : Ty}
    (h : table.resolveWith onVar e = .ok t) : t.Declared table.sums := by
  refine resolveWith_induct (fun name t ht => ?_) hvar
    (fun t _ hchildren hsum => Ty.declared_of_children hchildren hsum) e h
  unfold closed? at ht
  split at ht
  · cases ht
    exact Ty.declared_prim _ _
  · exact htable name t ht

theorem TargetsDeclared.addSynonym {d : Decl} (htable : table.TargetsDeclared)
    (h : table.addSynonym d = .ok table') : table'.TargetsDeclared := by
  cases d with
  | sum name params constructors =>
      cases h
      exact htable
  | synonym name target =>
      rw [TypeTable.addSynonym] at h
      simp only [bind_eq_ok_iff, pure_eq_ok_iff] at h
      obtain ⟨t, hres, rfl⟩ := h
      intro name' t' h'
      rw [Std.ExtTreeMap.getElem?_insert] at h'
      split at h'
      · cases h'
        exact resolveWith_declared htable (fun x u hu => absurd hu raise_ne_ok) target hres
      · exact htable name' t' h'

end TypeTable

/-! ## Declared constructors -/

namespace Decl

variable {decls : List Decl}

/-- The constructors of all declared types, each with the declaration of its type. -/
def allConstructors (decls : List Decl) : List (Decl × ConstructorDecl) :=
  decls.flatMap fun d => d.constructors.map fun c => (d, c)

theorem mem_allConstructors {p : Decl × ConstructorDecl} :
    p ∈ allConstructors decls ↔ p.1 ∈ decls ∧ p.2 ∈ p.1.constructors := by
  simp only [allConstructors, List.mem_flatMap, List.mem_map]
  constructor
  · rintro ⟨d, hd, c, hc, rfl⟩
    exact ⟨hd, hc⟩
  · rintro ⟨hd, hc⟩
    exact ⟨p.1, hd, p.2, hc, rfl⟩

theorem map_name_allConstructors (decls : List Decl) :
    (allConstructors decls).map (fun p => p.2.name) = constructorNames decls := by
  simp [allConstructors, constructorNames, List.map_flatMap, Function.comp_def]

/-- A constructor is declared in one place only. -/
theorem WellFormed.eq_of_constructor (h : WellFormed decls) {d d' : Decl} {c c' : ConstructorDecl}
    (hd : d ∈ decls) (hc : c ∈ d.constructors) (hd' : d' ∈ decls) (hc' : c' ∈ d'.constructors)
    (hname : c.name = c'.name) : d = d' := by
  have hnodup := h.constructors_nodup
  rw [← map_name_allConstructors] at hnodup
  have heq := List.inj_on_of_nodup_map hnodup (mem_allConstructors (p := (d, c)).mpr ⟨hd, hc⟩)
    (mem_allConstructors (p := (d', c')).mpr ⟨hd', hc'⟩) hname
  exact (Prod.mk.inj heq).1

end Decl

namespace Registry

variable {decls : List Decl} {r r' : Registry} {name : String} {info : ConstructorInfo}

/-! ## The entries of constructors -/

/-- The entry of the constructor `c` that the declaration `d` introduces. -/
structure EntryOf (table : TypeTable) (d : Decl) (c : ConstructorDecl) (info : ConstructorInfo) : Prop where
  fields_eq : c.fields.mapM (table.resolveWith (TypeTable.paramVariable d.name d.params)) = .ok info.fields
  info_eq : info = ⟨c.name, d.name, d.params, info.fields, d.constructors.map (·.name)⟩

/-- Adds a declared constructor. -/
def addDeclared (r : Registry) (p : Decl × ConstructorDecl) : Except TypeError Registry :=
  r.addConstructor p.1.name p.1.params (p.1.constructors.map (·.name)) p.2

/-- The third pass adds the declared constructors one after the other. -/
theorem foldlM_addConstructors_eq (decls : List Decl) (r : Registry) :
    decls.foldlM addConstructors r = (Decl.allConstructors decls).foldlM addDeclared r := by
  induction decls generalizing r with
  | nil => rfl
  | cons d decls ih =>
      have hcons : Decl.allConstructors (d :: decls) =
          d.constructors.map (fun c => (d, c)) ++ Decl.allConstructors decls := rfl
      rw [List.foldlM_cons, hcons, List.foldlM_append, List.foldlM_map, addConstructors_eq]
      exact bind_congr fun r' => ih r'

theorem addDeclared_ok_iff {p : Decl × ConstructorDecl} :
    r.addDeclared p = .ok r' ↔
      ∃ info, EntryOf r.toTypeTable p.1 p.2 info ∧
        { r with constructors := r.constructors.insert p.2.name info } = r' := by
  simp only [addDeclared, addConstructor, bind_eq_ok_iff, pure_eq_ok_iff]
  constructor
  · rintro ⟨fields, hfields, rfl⟩
    exact ⟨_, ⟨hfields, rfl⟩, rfl⟩
  · rintro ⟨info, ⟨hfields, hinfo⟩, rfl⟩
    exact ⟨info.fields, hfields, by rw [← hinfo]⟩

theorem EntryOf.unique {table : TypeTable} {d : Decl} {c : ConstructorDecl} {info info' : ConstructorInfo}
    (h : EntryOf table d c info) (h' : EntryOf table d c info') : info = info' := by
  have hfields := h.fields_eq.symm.trans h'.fields_eq
  rw [h.info_eq, h'.info_eq, Except.ok.inj hfields]

/-- After constructors with distinct names have been added, each has the entry of its declaration, and what
was there before under other names is still there. -/
theorem getElem?_of_foldlM_addDeclared {ps : List (Decl × ConstructorDecl)}
    (hnodup : (ps.map fun p => p.2.name).Nodup) (h : ps.foldlM addDeclared r = .ok r') :
    r'.constructors[name]? = some info ↔
      (∃ p ∈ ps, p.2.name = name ∧ EntryOf r.toTypeTable p.1 p.2 info) ∨
        ((∀ p ∈ ps, p.2.name ≠ name) ∧ r.constructors[name]? = some info) := by
  induction ps generalizing r with
  | nil =>
      rw [List.foldlM_nil, pure_eq_ok_iff] at h
      simp [h]
  | cons p ps ih =>
      rw [List.foldlM_cons, bind_eq_ok_iff] at h
      obtain ⟨r₁, hp, h⟩ := h
      obtain ⟨entry, hentry, rfl⟩ := addDeclared_ok_iff.mp hp
      rw [List.map_cons, List.nodup_cons] at hnodup
      rw [ih hnodup.2 h]
      simp only [Std.ExtTreeMap.getElem?_insert, Std.LawfulEqCmp.compare_eq_iff_eq,
        List.exists_mem_cons_iff, List.forall_mem_cons]
      by_cases hname : p.2.name = name
      · -- the entry just added is the one that stays, for no later name is the same
        have hlater : ∀ q ∈ ps, q.2.name ≠ name := fun q hq heq =>
          hnodup.1 (List.mem_map.mpr ⟨q, hq, heq.trans hname.symm⟩)
        have hno : ¬ ∃ q ∈ ps, q.2.name = name ∧ EntryOf r.toTypeTable q.1 q.2 info := by
          rintro ⟨q, hq, heq, -⟩
          exact hlater q hq heq
        have hentry_iff : EntryOf r.toTypeTable p.1 p.2 info ↔ entry = info :=
          ⟨hentry.unique, fun heq => heq ▸ hentry⟩
        rw [or_iff_right hno, and_iff_right hlater, if_pos hname]
        simp [hname, hno, hentry_iff]
      · simp [hname]

/-- The tables of an accepted list of declarations, and the entries of its constructors. -/
structure Holds (decls : List Decl) (r : Registry) : Prop where
  wellFormed : Decl.WellFormed decls
  sums_eq : r.sums = (TypeTable.ofSums decls).sums
  targetsDeclared : r.toTypeTable.TargetsDeclared
  constructors_iff : ∀ (name : String) (info : ConstructorInfo), r.constructors[name]? = some info ↔
    ∃ d ∈ decls, ∃ c ∈ d.constructors, c.name = name ∧ EntryOf r.toTypeTable d c info

theorem build_holds (h : build decls = .ok r) : Holds decls r := by
  have hwf := (exists_build_iff decls).mp ⟨r, h⟩
  have hreads := build_reads h
  rw [build] at h
  simp only [bind_eq_ok_iff] at h
  obtain ⟨seen, -, table, htable, h⟩ := h
  have htargets : table.TargetsDeclared :=
    foldlM_invariant TypeTable.TargetsDeclared (fun _ _ _ _ ht h => ht.addSynonym h)
      (fun name t ht => by simp [TypeTable.ofSums] at ht) htable
  have hr : r.toTypeTable = table := foldlM_addConstructors_table h
  subst hr
  refine ⟨hwf, hreads.sums_eq, htargets, fun name info => ?_⟩
  rw [foldlM_addConstructors_eq] at h
  have hnodup := hwf.constructors_nodup
  rw [← Decl.map_name_allConstructors] at hnodup
  rw [getElem?_of_foldlM_addDeclared hnodup h]
  simp [Decl.mem_allConstructors, and_assoc]

/-! ## How the tables fit together -/

variable (h : Holds decls r)
include h

theorem Holds.sum_of_decl {d : Decl} (hd : d ∈ decls) {c : ConstructorDecl} (hc : c ∈ d.constructors) :
    r.sums[d.name]? = some ⟨d.name, d.params, d.constructors.map (·.name)⟩ := by
  rw [h.sums_eq, TypeTable.getElem?_ofSums h.wellFormed.names_nodup]
  cases d with
  | sum typeName params constructors => exact ⟨params, constructors, hd, rfl⟩
  | synonym typeName target => cases hc

theorem Holds.decl_of_sum {typeName : String} {info : SumInfo} (hinfo : r.sums[typeName]? = some info) :
    ∃ d ∈ decls, d.name = typeName ∧ d.params = info.params ∧
      d.constructors.map (·.name) = info.constructors := by
  rw [h.sums_eq, TypeTable.getElem?_ofSums h.wellFormed.names_nodup] at hinfo
  obtain ⟨params, constructors, hd, rfl⟩ := hinfo
  exact ⟨_, hd, rfl, rfl, rfl⟩

end Registry

/-- The entry of a constructor agrees with the declaration of its type and with the other tables. -/
structure ConstructorInfo.Coherent (decls : List Decl) (r : Registry) (name : String)
    (c : ConstructorInfo) : Prop where
  /-- The type of the constructor lists it once, and shares its constructors and parameters with it. -/
  owner : ∃ info, r.sums[c.typeName]? = some info ∧ info.constructors.count name = 1 ∧
    c.siblings = info.constructors ∧ c.typeParams = info.params
  owner_unique : ∀ (typeName : String) (info : SumInfo), r.sums[typeName]? = some info →
    name ∈ info.constructors → typeName = c.typeName
  /-- The entry repeats the declaration, with one field for each declared one. -/
  declared : ∃ constructors, Decl.sum c.typeName c.typeParams constructors ∈ decls ∧
    c.siblings = constructors.map (·.name) ∧
    ∃ d ∈ constructors, d.name = name ∧ c.arity = d.fields.length
  field_vars : ∀ t ∈ c.fields, ∀ v ∈ t.vars, 0 ≤ v ∧ v < (c.typeParams.length : TyVar)
  field_declared : ∀ t ∈ c.fields, t.Declared r.sums

/-- From this state an instance of the constructor takes one new variable for each parameter.  It has the fields of
the constructor, in their order and with the new variables in place of the parameters, and mentions no other
variables. -/
def ConstructorInfo.InstantiatesFreshly (c : ConstructorInfo) (st : InferState) : Prop :=
  ∃ inst, (Infer.instantiateConstructor c).start st =
      (.ok inst, { st with next := st.next + c.typeParams.length }) ∧
    inst.result = .sum c.typeName (freshTys st.next c.typeParams.length) ∧
    (freshTys st.next c.typeParams.length).Nodup ∧
    inst.fields = c.fields.map (Ty.assign fun v => .var (st.next + v)) ∧
    ∀ t ∈ inst.fields, ∀ v ∈ t.vars, Ty.var v ∈ freshTys st.next c.typeParams.length

theorem nodup_freshTys (n : TyVar) (k : Nat) : (freshTys n k).Nodup := by
  refine List.nodup_range.map fun i j hij => ?_
  have hij : n + (i : TyVar) = n + (j : TyVar) := Ty.var.inj hij
  lia

theorem mem_freshTys {n v : TyVar} {k : Nat} : Ty.var v ∈ freshTys n k ↔ n ≤ v ∧ v < n + k := by
  simp only [freshTys, List.mem_map, List.mem_range, Ty.var.injEq]
  constructor
  · rintro ⟨i, hi, rfl⟩
    constructor <;> lia
  · rintro ⟨hle, hlt⟩
    exact ⟨(v - n).toNat, by lia, by lia⟩

namespace Registry

variable {decls : List Decl} {r : Registry} {name : String} {c : ConstructorInfo}

theorem coherent_of_build (hbuild : build decls = .ok r) (hc : r.constructors[name]? = some c) :
    c.Coherent decls r name := by
  have h := build_holds hbuild
  have hvars := (build_wellFormed hbuild).field_vars name c hc
  obtain ⟨d, hd, cd, hcd, rfl, hentry⟩ := (h.constructors_iff name c).mp hc
  have hmem : cd.name ∈ d.constructors.map (·.name) := List.mem_map.mpr ⟨cd, hcd, rfl⟩
  have hnodup := (List.nodup_flatMap.mp h.wellFormed.constructors_nodup).1 d hd
  have hinfo := hentry.info_eq
  refine ⟨⟨⟨d.name, d.params, d.constructors.map (·.name)⟩, ?_, List.count_eq_one_of_mem hnodup hmem, ?_,
    ?_⟩, fun typeName info hs hname => ?_, ?_, fun t ht v hv => ?_, fun t ht => ?_⟩
  · rw [hinfo]
    exact h.sum_of_decl hd hcd
  · rw [hinfo]
  · rw [hinfo]
  · -- a type that lists the name declares a constructor of this name, and only one declaration does
    obtain ⟨d', hd', rfl, -, hcs⟩ := h.decl_of_sum hs
    rw [← hcs] at hname
    obtain ⟨cd', hcd', heq⟩ := List.mem_map.mp hname
    rw [hinfo, h.wellFormed.eq_of_constructor hd hcd hd' hcd' heq.symm]
  · have hlen := (mapM_eq_ok_iff.mp hentry.fields_eq).length_eq
    cases d with
    | synonym typeName target => cases hcd
    | sum typeName params constructors =>
        rw [hinfo]
        exact ⟨constructors, hd, rfl, cd, hcd, rfl, hlen.symm⟩
  · obtain ⟨i, hi, rfl⟩ := hvars t ht v hv
    constructor <;> lia
  · -- parameters stand for variables, so they bring no sums into the field
    obtain ⟨e, -, he⟩ := exists_of_mem_mapM hentry.fields_eq t ht
    refine TypeTable.resolveWith_declared h.targetsDeclared (fun x u hu => ?_) e he
    unfold TypeTable.paramVariable at hu
    split at hu
    · cases hu
      exact Ty.declared_var _ _
    · exact absurd hu raise_ne_ok

theorem instantiatesFreshly_of_build (hbuild : build decls = .ok r) (hc : r.constructors[name]? = some c)
    (st : InferState) : c.InstantiatesFreshly st := by
  have hbounded : c.Bounded := (build_wellFormed hbuild).field_vars name c hc
  refine ⟨c.instantiate st.next, rfl, rfl, nodup_freshTys _ _, c.fields_instantiate hbounded st.next,
    fun t ht v hv => ?_⟩
  rcases c.within_fields hbounded ∅ st.next t ht v hv with hv | hv
  · exact absurd hv (Set.notMem_empty v)
  · exact mem_freshTys.mpr hv

/-- **The tables of a registry fit together.** The entry of every constructor agrees with its type and with
its declaration, synonyms stand for types without variables, and no type mentions a sum that is not declared.
Hence an instance of a constructor has its fields over new variables only, one for each parameter. -/
theorem build_coherent (hbuild : build decls = .ok r) :
    (∀ (name : String) (c : ConstructorInfo), r.constructors[name]? = some c →
      c.Coherent decls r name ∧ ∀ st, c.InstantiatesFreshly st) ∧
    ∀ (name : String) (t : Ty), r.synonyms[name]? = some t → t.vars = [] ∧ t.Declared r.sums := by
  refine ⟨fun name c hc => ⟨coherent_of_build hbuild hc, fun st => ?_⟩, fun name t ht => ⟨?_, ?_⟩⟩
  · exact instantiatesFreshly_of_build hbuild hc st
  · exact (build_wellFormed hbuild).synonym_closed name t ht
  · exact (build_holds hbuild).targetsDeclared name t ht

/-- Trees and forests refer to each other, and to a synonym. -/
def forestDecls : List Decl :=
  [.sum "Tree" ["a"] [⟨"Leaf", []⟩, ⟨"Node", [.var "a", .con "Label" [], .con "Forest" [.var "a"]]⟩],
    .synonym "Label" (.tuple [.con "Int" [], .con "Char" []]),
    .sum "Forest" ["a"] [⟨"Empty", []⟩, ⟨"Grow", [.con "Tree" [.var "a"], .con "Forest" [.var "a"]]⟩]]

/-- What is registered about an inner node. -/
def nodeInfo : ConstructorInfo :=
  ⟨"Node", "Tree", ["a"], [.var 0, .tuple [.int, .char], .sum "Forest" [.var 0]], ["Leaf", "Node"]⟩

theorem build_coherent_forest :
    ∃ r, build forestDecls = .ok r ∧ r.constructors["Node"]? = some nodeInfo ∧
      nodeInfo.Coherent forestDecls r "Node" ∧ nodeInfo.InstantiatesFreshly { next := 7 } ∧
      ∃ t, r.synonyms["Label"]? = some t ∧ t.vars = [] ∧ t.Declared r.sums := by
  have heval : (build forestDecls).toOption.map (fun r => (r.constructors["Node"]?, r.synonyms["Label"]?)) =
      some (some nodeInfo, some (.tuple [.int, .char])) := rfl
  obtain ⟨r, hopt, hentries⟩ := Option.map_eq_some_iff.mp heval
  have hbuild := eq_ok_of_toOption hopt
  obtain ⟨hinfo, hlabel⟩ := Prod.mk.inj hentries
  obtain ⟨hconstructors, hsynonyms⟩ := build_coherent hbuild
  obtain ⟨hcoherent, hfresh⟩ := hconstructors "Node" nodeInfo hinfo
  exact ⟨r, hbuild, hinfo, hcoherent, hfresh _, _, hlabel, hsynonyms "Label" _ hlabel⟩

end Registry

end Polytype
