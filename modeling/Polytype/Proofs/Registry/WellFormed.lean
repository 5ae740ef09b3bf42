/-
# Polytype.Proofs.Registry.WellFormed — what every accepted list of declarations guarantees.

Inference and coverage read the registry and never check it.  What they rely on is collected in
`Registry.WellFormed`: the names of primitives, synonyms and sums are kept apart, synonyms stand for
types without variables, the fields of a constructor mention only the parameters of its type, and the
siblings of a constructor are all constructors of its type.

Reading the declarations takes three passes.  The first accepts exactly the declarations that introduce
every name once (`exists_foldlM_addDecl_iff`); the second keeps synonyms closed (`TableOf`), and the third
adds constructors of declared types only (`ConstructorsOf`).
-/
import Mathlib.Data.List.Nodup
import Polytype.Proofs.Assignment
import Polytype.Proofs.Run
import Polytype.Registry.Build

namespace Polytype

/-- The guarantees of a registry. -/
structure Registry.WellFormed (r : Registry) : Prop where
  synonym_closed : ∀ (name : String) (t : Ty), r.synonyms[name]? = some t → t.vars = []
  synonym_not_prim : ∀ (name : String) (t : Ty), r.synonyms[name]? = some t → Prim.named? name = none
  sum_not_prim : ∀ (name : String) (info : SumInfo), r.sums[name]? = some info →
    Prim.named? name = none
  sum_not_synonym : ∀ (name : String) (info : SumInfo), r.sums[name]? = some info →
    r.synonyms[name]? = none
  /-- The variables of a field are numbers of parameters. -/
  field_vars : ∀ (name : String) (c : ConstructorInfo), r.constructors[name]? = some c →
    ∀ t ∈ c.fields, ∀ v ∈ t.vars, ∃ i < c.typeParams.length, v = (i : TyVar)
  sibling_mem : ∀ (name name' : String) (c c' : ConstructorInfo), r.constructors[name]? = some c →
    r.constructors[name']? = some c' → c.typeName = c'.typeName → name' ∈ c.siblings

theorem raise_ne_ok {α : Type} {f : Fault} {a : α} : (f.raise : Except TypeError α) ≠ .ok a := by
  simp [Fault.raise]

/-! ## The first pass: names -/

/-- No name of the second list has been seen, and none comes twice. -/
def NewNames (seen names : List String) : Prop := names.Nodup ∧ ∀ x ∈ names, x ∉ seen

theorem newNames_nil (seen : List String) : NewNames seen [] := by
  simp [NewNames]

/-- Names may be introduced one part after the other. -/
theorem newNames_append {seen xs ys : List String} (seen' : List String)
    (h : ∀ x, x ∈ seen' ↔ x ∈ xs ∨ x ∈ seen) :
    NewNames seen (xs ++ ys) ↔ NewNames seen xs ∧ NewNames seen' ys := by
  simp only [NewNames, List.nodup_append, List.mem_append, h]
  grind

theorem newNames_cons {seen xs : List String} {x : String} :
    NewNames seen (x :: xs) ↔ x ∉ seen ∧ NewNames (x :: seen) xs := by
  rw [← List.singleton_append, newNames_append (x :: seen) (by simp)]
  simp [NewNames]

theorem repeated?_eq_none_iff {seen xs : List String} :
    repeated? seen xs = none ↔ NewNames seen xs := by
  induction xs generalizing seen with
  | nil => simp [repeated?, newNames_nil]
  | cons x xs ih =>
      rw [repeated?, newNames_cons]
      split
      · next hx => simp [hx]
      · next hx => simp [hx, ih]

theorem named?_eq_none_iff {name : String} :
    Prim.named? name = none ↔ name ∉ ["Int", "Bool", "Char", "Range"] := by
  simp only [Prim.named?, List.find?_eq_none, beq_iff_eq]
  simp [Prim.all, Prim.name, @eq_comm String _ name]

namespace Decl

/-- The parameters of a sum type; a synonym has none. -/
def params : Decl → List String
  | .sum _ params _ => params
  | .synonym _ _ => []

/-- The constructors of a sum type; a synonym has none. -/
def constructors : Decl → List ConstructorDecl
  | .sum _ _ constructors => constructors
  | .synonym _ _ => []

/-- The names of the constructors of all declared types. -/
def constructorNames (decls : List Decl) : List String :=
  decls.flatMap fun d => d.constructors.map (·.name)

end Decl

namespace Introduced

theorem addConstructor_ok_iff {typeName : String} {known known' : List (String × String)}
    {c : ConstructorDecl} :
    addConstructor typeName known c = .ok known' ↔
      c.name ∉ known.map Prod.fst ∧ (c.name, typeName) :: known = known' := by
  rw [addConstructor]
  cases h : known.lookup c.name with
  | some owner =>
      have hmem : c.name ∈ known.map Prod.fst := by
        obtain ⟨l₁, l₂, rfl, -⟩ := List.lookup_eq_some_iff.mp h
        simp
      simp [Fault.raise, hmem]
  | none =>
      rw [List.lookup_eq_none_iff] at h
      have hnew : c.name ∉ known.map Prod.fst := by
        intro hmem
        obtain ⟨p, hp, heq⟩ := List.mem_map.mp hmem
        simpa [heq] using h p hp
      simp [hnew]

/-- The constructors of one type are introduced if their names are new. -/
theorem foldlM_addConstructor_ok_iff {typeName : String} {cs : List ConstructorDecl}
    {known known' : List (String × String)} :
    cs.foldlM (addConstructor typeName) known = .ok known' ↔
      NewNames (known.map Prod.fst) (cs.map (·.name)) ∧
        (cs.map fun c => (c.name, typeName)).reverse ++ known = known' := by
  induction cs generalizing known with
  | nil => simp [pure, Except.pure, newNames_nil]
  | cons c cs ih =>
      simp only [List.foldlM_cons, bind_eq_ok_iff, addConstructor_ok_iff, ih, List.map_cons,
        newNames_cons, List.reverse_cons, List.append_assoc, List.singleton_append, and_assoc,
        exists_and_left, exists_eq_left']

theorem addDecl_ok_iff {seen seen' : Introduced} {d : Decl} :
    seen.addDecl d = .ok seen' ↔
      (Prim.named? d.name = none ∧ d.name ∉ seen.types) ∧ d.params.Nodup ∧
        ∃ known, d.constructors.foldlM (addConstructor d.name) seen.constructors = .ok known ∧
          ⟨d.name :: seen.types, known⟩ = seen' := by
  unfold addDecl
  by_cases hname : ((Prim.named? d.name).isSome || seen.types.contains d.name) = true
  · have hold : ¬ (Prim.named? d.name = none ∧ d.name ∉ seen.types) := by
      rintro ⟨hp, ht⟩
      simp [hp, ht] at hname
    rw [if_pos hname]
    simp [hold, Fault.raise, bind, Except.bind]
  · have hnew : Prim.named? d.name = none ∧ d.name ∉ seen.types := by simpa using hname
    rw [if_neg hname]
    simp only [hnew, not_false_eq_true, and_self, true_and]
    cases d with
    | synonym name target => simp [Decl.params, Decl.constructors, Decl.name, pure, Except.pure]
    | sum name params constructors =>
        have hparams : repeated? [] params = none ↔ params.Nodup := by
          simp [repeated?_eq_none_iff, NewNames]
        simp only [Decl.params, ← hparams]
        cases hp : repeated? [] params with
        | some param => simp [Fault.raise, bind, Except.bind]
        | none =>
            simp only [bind_eq_ok_iff, pure_eq_ok_iff, true_and]
            rfl

/-- The first pass accepts declarations with new names, distinct parameters and new constructors. -/
theorem exists_foldlM_addDecl_iff {decls : List Decl} {seen : Introduced} :
    (∃ seen', decls.foldlM addDecl seen = .ok seen') ↔
      NewNames seen.types (decls.map Decl.name) ∧
      (∀ d ∈ decls, Prim.named? d.name = none ∧ d.params.Nodup) ∧
      NewNames (seen.constructors.map Prod.fst) (Decl.constructorNames decls) := by
  induction decls generalizing seen with
  | nil => simp [pure, Except.pure, Decl.constructorNames, newNames_nil]
  | cons d decls ih =>
      have hstep : (∃ seen', (d :: decls).foldlM addDecl seen = .ok seen') ↔
          ∃ seen₁, seen.addDecl d = .ok seen₁ ∧ ∃ seen', decls.foldlM addDecl seen₁ = .ok seen' := by
        simp only [List.foldlM_cons, bind_eq_ok_iff]
        grind
      have hcs : NewNames (seen.constructors.map Prod.fst) (Decl.constructorNames (d :: decls)) ↔ _ :=
        newNames_append (((d.constructors.map fun c => (c.name, d.name)).reverse ++
          seen.constructors).map Prod.fst) (by simp)
      rw [hstep, hcs, List.map_cons, newNames_cons, List.forall_mem_cons]
      simp only [ih, addDecl_ok_iff, foldlM_addConstructor_ok_iff]
      constructor
      · rintro ⟨-, ⟨⟨hprim, hnew⟩, hparams, -, ⟨hown, rfl⟩, rfl⟩, hnames, hall, hothers⟩
        exact ⟨⟨hnew, hnames⟩, ⟨⟨hprim, hparams⟩, hall⟩, hown, hothers⟩
      · rintro ⟨⟨hnew, hnames⟩, ⟨⟨hprim, hparams⟩, hall⟩, hown, hothers⟩
        exact ⟨_, ⟨⟨hprim, hnew⟩, hparams, _, ⟨hown, rfl⟩, rfl⟩, hnames, hall, hothers⟩

theorem ofDecls_names {decls : List Decl} {seen : Introduced}
    (h : Introduced.ofDecls decls = .ok seen) :
    (decls.map Decl.name).Nodup ∧ ∀ d ∈ decls, Prim.named? d.name = none := by
  obtain ⟨hnames, hdecls, -⟩ := exists_foldlM_addDecl_iff.mp ⟨seen, h⟩
  exact ⟨hnames.1, fun d hd => (hdecls d hd).1⟩

end Introduced

/-- Declarations with distinct names are known by their names. -/
theorem decl_eq_of_name {decls : List Decl} (h : (decls.map Decl.name).Nodup) {d d' : Decl}
    (hd : d ∈ decls) (hd' : d' ∈ decls) (hname : d.name = d'.name) : d = d' :=
  List.inj_on_of_nodup_map h hd hd' hname

/-- A map that is written as a list without repeated keys has the entries of the list. -/
theorem getElem?_ofList_iff {α β : Type} [BEq α] [Ord α] [Std.TransOrd α] [Std.LawfulEqOrd α]
    [LawfulBEq α] [Std.LawfulBEqOrd α]
    {l : List (α × β)} (h : (l.map Prod.fst).Nodup) {k : α} {v : β} :
    (Std.ExtTreeMap.ofList l : Std.ExtTreeMap α β)[k]? = some v ↔ (k, v) ∈ l := by
  have hl : l.Pairwise fun a b => ¬ compare a.1 b.1 = .eq := by
    simp only [Std.LawfulEqCmp.compare_eq_iff_eq]
    exact List.pairwise_map.mp h
  have hof : ∀ {w : β}, (k, w) ∈ l → (Std.ExtTreeMap.ofList l : Std.ExtTreeMap α β)[k]? = some w :=
    fun hw => Std.ExtTreeMap.getElem?_ofList_of_mem (k := k) (by simp) hl hw
  refine ⟨fun hv => ?_, hof⟩
  have hk : k ∈ (Std.ExtTreeMap.ofList l : Std.ExtTreeMap α β) :=
    Std.ExtTreeMap.mem_iff_isSome_getElem?.mpr (by simp [hv])
  simp only [Std.ExtTreeMap.mem_ofList, List.contains_iff_mem, List.mem_map] at hk
  obtain ⟨⟨k', w⟩, hw, rfl⟩ := hk
  rw [hof hw] at hv
  cases hv
  exact hw

/-! ## Resolved types -/

namespace TypeTable

section Lists

variable {m : Type → Type} [Monad m] [LawfulMonad m] [MonadLiftT (Except TypeError) m]
  (table : TypeTable) (onVar : String → m Ty)

theorem resolveList_eq_mapM (es : List TypeExpr) :
    table.resolveList onVar es = es.mapM (table.resolveWith onVar) := by
  induction es with
  | nil => rw [resolveList, List.mapM_nil]
  | cons e es ih => rw [resolveList, List.mapM_cons, ih]

/-- Labelled expressions are resolved as a list, under their labels. -/
theorem resolveFields_eq (fields : List (String × TypeExpr)) :
    table.resolveFields onVar fields =
      (fun ts => (fields.map Prod.fst).zip ts) <$> table.resolveList onVar (fields.map Prod.snd) := by
  induction fields with
  | nil => simp [resolveFields, resolveList]
  | cons f fields ih => simp [resolveFields, resolveList, ih]

end Lists

variable {table : TypeTable} {name : String} {count : Nat}

/-- The synonyms of the table stand for types without variables. -/
def Closed (table : TypeTable) : Prop :=
  ∀ (name : String) (t : Ty), table.synonyms[name]? = some t → t.vars = []

theorem denote_closed {t : Ty} (h : table.denote name count = .ok (.closed t)) :
    count = 0 ∧ table.closed? name = some t := by
  unfold denote at h
  split at h
  · next u hu =>
      split at h
      · next hn =>
          cases h
          exact ⟨hn, hu⟩
      · exact absurd h raise_ne_ok
  · split at h
    · cases h
    · split at h
      · cases h
      · exact absurd h raise_ne_ok

theorem denote_sum (h : table.denote name count = .ok .sum) :
    ∃ info, table.sums[name]? = some info ∧ count = info.params.length := by
  unfold denote at h
  split at h
  · split at h
    · cases h
    · exact absurd h raise_ne_ok
  · split at h
    · cases h
    · next info hinfo =>
        split at h
        · next hn => exact ⟨info, hinfo, hn⟩
        · exact absurd h raise_ne_ok

theorem closed?_vars (hc : table.Closed) {t : Ty} (h : table.closed? name = some t) : t.vars = [] := by
  unfold closed? at h
  split at h
  · cases h
    rfl
  · exact hc name t h

section Resolve

variable {onVar : String → Except TypeError Ty} {P : Ty → Prop}

/-- What holds of the types that names and variables stand for, and passes from the children of a type to
the type, holds of every resolved type.  A sum among them is a declared one and has all its arguments. -/
theorem resolveWith_induct (hclosed : ∀ (name : String) (t : Ty), table.closed? name = some t → P t)
    (hvar : ∀ (x : String) (t : Ty), onVar x = .ok t → P t)
    (hnode : ∀ t : Ty, t.head? ≠ none → (∀ c ∈ t.children, P c) →
      (∀ (name : String) (ts : List Ty), t = .sum name ts →
        ∃ info, table.sums[name]? = some info ∧ ts.length = info.params.length) → P t)
    (e : TypeExpr) : ∀ {t : Ty}, table.resolveWith onVar e = .ok t → P t := by
  have hlist : ∀ {es : List TypeExpr} {ts : List Ty},
      (∀ e ∈ es, ∀ {t : Ty}, table.resolveWith onVar e = .ok t → P t) →
      table.resolveList onVar es = .ok ts → ∀ t ∈ ts, P t := by
    intro es ts ih h t ht
    rw [resolveList_eq_mapM] at h
    obtain ⟨e, he, h⟩ := exists_of_mem_mapM h t ht
    exact ih e he h
  induction e with
  | con name args ih =>
      intro t h
      rw [resolveWith, bind_eq_ok_iff] at h
      obtain ⟨d, hd, h⟩ := h
      cases d with
      | closed u =>
          cases h
          exact hclosed name t (denote_closed hd).2
      | sum =>
          simp only [bind_eq_ok_iff, pure_eq_ok_iff] at h
          obtain ⟨ts, hts, rfl⟩ := h
          obtain ⟨info, hinfo, hlen⟩ := denote_sum hd
          refine hnode _ (by simp [Ty.head?]) (hlist ih hts) ?_
          rintro name' ts' heq
          cases heq
          rw [resolveList_eq_mapM, mapM_eq_ok_iff] at hts
          exact ⟨info, hinfo, hts.length_eq.symm.trans hlen⟩
  | var name => exact fun h => hvar name _ h
  | arrow dom cod ihd ihc =>
      intro t h
      rw [resolveWith] at h
      simp only [bind_eq_ok_iff, pure_eq_ok_iff] at h
      obtain ⟨a, ha, b, hb, rfl⟩ := h
      exact hnode _ (by simp [Ty.head?]) (by simp [Ty.children, ihd ha, ihc hb]) (by simp)
  | tuple elems ih =>
      intro t h
      rw [resolveWith] at h
      simp only [bind_eq_ok_iff, pure_eq_ok_iff] at h
      obtain ⟨ts, hts, rfl⟩ := h
      exact hnode _ (by simp [Ty.head?]) (hlist ih hts) (by simp)
  | record fields ih =>
      intro t h
      rw [resolveWith, resolveFields_eq] at h
      simp only [bind_eq_ok_iff, map_eq_ok_iff, pure_eq_ok_iff] at h
      obtain ⟨-, ⟨ts, hts, rfl⟩, rfl⟩ := h
      refine hnode _ (by simp [Ty.head?]) (fun c hc => ?_) (by simp)
      obtain ⟨g, hg, rfl⟩ := List.mem_map.mp hc
      exact hlist (List.forall_mem_map.mpr ih) hts g.2 (List.of_mem_zip hg).2

/-- The variables of a resolved type are among those that stand for the variables of the expression. -/
theorem resolveWith_vars {Q : TyVar → Prop} (hc : table.Closed)
    (hv : ∀ (x : String) (t : Ty), onVar x = .ok t → ∀ v ∈ t.vars, Q v) (e : TypeExpr) {t : Ty}
    (h : table.resolveWith onVar e = .ok t) : ∀ v ∈ t.vars, Q v := by
  refine resolveWith_induct (P := fun t => ∀ v ∈ t.vars, Q v) (fun name t ht => ?_) hv
    (fun t hhead hchildren _ v hv => ?_) e h
  · simp [closed?_vars hc ht]
  · obtain ⟨c, hc, hv⟩ := (Ty.mem_vars_iff_children hhead).mp hv
    exact hchildren c hc v hv

end Resolve

/-! ## The second pass: synonyms -/

theorem sumNames_sublist (decls : List Decl) :
    ((decls.filterMap Decl.sumInfo?).map SumInfo.name).Sublist (decls.map Decl.name) := by
  induction decls with
  | nil => exact .slnil
  | cons d decls ih =>
      cases d with
      | sum name params constructors => exact ih.cons_cons name
      | synonym name target => exact ih.cons name

theorem getElem?_ofSums (h : (decls.map Decl.name).Nodup) {info : SumInfo} :
    (ofSums decls).sums[name]? = some info ↔
      ∃ params constructors, Decl.sum name params constructors ∈ decls ∧
        ⟨name, params, constructors.map (·.name)⟩ = info := by
  have hkeys : (((decls.filterMap Decl.sumInfo?).map fun info => (info.name, info)).map Prod.fst).Nodup := by
    rw [List.map_map]
    exact (sumNames_sublist decls).nodup h
  rw [ofSums, getElem?_ofList_iff hkeys]
  simp only [List.mem_map, List.mem_filterMap, Prod.mk.injEq]
  constructor
  · rintro ⟨info', ⟨d, hd, hinfo⟩, rfl, rfl⟩
    cases d with
    | synonym name target => cases hinfo
    | sum name params constructors =>
        cases hinfo
        exact ⟨params, constructors, hd, rfl⟩
  · rintro ⟨params, constructors, hd, rfl⟩
    exact ⟨_, ⟨_, hd, rfl⟩, rfl, rfl⟩

/-- The table has the declared sums, and closed types for some of the declared synonyms. -/
structure TableOf (decls : List Decl) (table : TypeTable) : Prop where
  closed : table.Closed
  synonym_declared : ∀ (name : String) (t : Ty), table.synonyms[name]? = some t →
    ∃ target, Decl.synonym name target ∈ decls
  sum_declared : ∀ (name : String) (info : SumInfo), table.sums[name]? = some info →
    ∃ params constructors, Decl.sum name params constructors ∈ decls

theorem tableOf_ofSums (decls : List Decl) : TableOf decls (ofSums decls) := by
  refine ⟨?_, ?_, ?_⟩
  · intro name t h
    simp [ofSums] at h
  · intro name t h
    simp [ofSums] at h
  · intro name info h
    have hmem : name ∈ (ofSums decls).sums := Std.ExtTreeMap.mem_iff_isSome_getElem?.mpr (by simp [h])
    simp only [ofSums, Std.ExtTreeMap.mem_ofList, List.map_map, List.contains_iff_mem, List.mem_map,
      List.mem_filterMap] at hmem
    obtain ⟨info', ⟨d, hd, hinfo⟩, hname⟩ := hmem
    cases d with
    | synonym name' target => cases hinfo
    | sum name' params constructors =>
        cases hinfo
        cases hname
        exact ⟨params, constructors, hd⟩

/-- A variable in the target of a synonym is a fault, so what is added has none. -/
theorem TableOf.addSynonym {decls : List Decl} {table' : TypeTable} (ht : TableOf decls table)
    {d : Decl} (hd : d ∈ decls) (h : table.addSynonym d = .ok table') : TableOf decls table' := by
  cases d with
  | sum name params constructors =>
      cases h
      exact ht
  | synonym name target =>
      rw [TypeTable.addSynonym] at h
      simp only [bind_eq_ok_iff, pure_eq_ok_iff] at h
      obtain ⟨t, hres, rfl⟩ := h
      have hvars : t.vars = [] := by
        refine List.eq_nil_iff_forall_not_mem.mpr ?_
        exact resolveWith_vars ht.closed (fun x u hu => absurd hu raise_ne_ok) target hres
      refine ⟨?_, ?_, ht.sum_declared⟩
      · intro name' t' h'
        rw [Std.ExtTreeMap.getElem?_insert] at h'
        split at h'
        · cases h'
          exact hvars
        · exact ht.closed name' t' h'
      · intro name' t' h'
        rw [Std.ExtTreeMap.getElem?_insert] at h'
        split at h'
        · next heq =>
            rw [Std.LawfulEqCmp.compare_eq_iff_eq] at heq
            exact ⟨target, heq ▸ hd⟩
        · exact ht.synonym_declared name' t' h'

theorem TableOf.ofDecls {decls : List Decl} {table' : TypeTable}
    (h : decls.foldlM TypeTable.addSynonym (ofSums decls) = .ok table') : TableOf decls table' :=
  foldlM_invariant (TableOf decls) (fun _ _ hd _ ht h => ht.addSynonym hd h) (tableOf_ofSums decls) h

end TypeTable

/-! ## The third pass: constructors -/

namespace Registry

/-- The constructor belongs to a declared type and mentions no variables but its parameters. -/
structure DeclaredIn (decls : List Decl) (name : String) (c : ConstructorInfo) : Prop where
  declared : ∃ constructors, Decl.sum c.typeName c.typeParams constructors ∈ decls ∧
    c.siblings = constructors.map (·.name)
  name_mem : name ∈ c.siblings
  field_vars : ∀ t ∈ c.fields, ∀ v ∈ t.vars, ∃ i < c.typeParams.length, v = (i : TyVar)

/-- The registry has the types of the table, and constructors of declared types only. -/
structure ConstructorsOf (decls : List Decl) (table : TypeTable) (r : Registry) : Prop where
  table_eq : r.toTypeTable = table
  declaredIn : ∀ (name : String) (c : ConstructorInfo), r.constructors[name]? = some c →
    DeclaredIn decls name c

theorem paramVariable_vars {owner x : String} {params : List String} {t : Ty}
    (h : TypeTable.paramVariable owner params x = .ok t) :
    ∀ v ∈ t.vars, ∃ i < params.length, v = (i : TyVar) := by
  unfold TypeTable.paramVariable at h
  split at h
  · next i hi =>
      cases h
      intro v hv
      rw [List.idxOf?, List.findIdx?_eq_some_iff_findIdx_eq] at hi
      exact ⟨i, hi.1, by simpa [Ty.vars] using hv⟩
  · exact absurd h raise_ne_ok

variable {decls : List Decl} {table : TypeTable} {r r' : Registry}

theorem ConstructorsOf.addConstructor (hr : ConstructorsOf decls table r) (hc : table.Closed)
    {typeName : String} {params : List String} {constructors : List ConstructorDecl}
    (hd : Decl.sum typeName params constructors ∈ decls) {c : ConstructorDecl} (hmem : c ∈ constructors)
    (h : r.addConstructor typeName params (constructors.map (·.name)) c = .ok r') :
    ConstructorsOf decls table r' := by
  rw [Registry.addConstructor] at h
  simp only [bind_eq_ok_iff, pure_eq_ok_iff] at h
  obtain ⟨fields, hfields, rfl⟩ := h
  refine ⟨hr.table_eq, fun name info hinfo => ?_⟩
  rw [Std.ExtTreeMap.getElem?_insert] at hinfo
  split at hinfo
  · next heq =>
      rw [Std.LawfulEqCmp.compare_eq_iff_eq] at heq
      cases hinfo
      refine ⟨⟨constructors, hd, rfl⟩, ?_, fun t ht => ?_⟩
      · exact List.mem_map.mpr ⟨c, hmem, heq⟩
      · obtain ⟨e, -, he⟩ := exists_of_mem_mapM hfields t ht
        rw [hr.table_eq] at he
        exact TypeTable.resolveWith_vars hc (fun x u hu => paramVariable_vars hu) e he
  · exact hr.declaredIn name info hinfo

theorem ConstructorsOf.addConstructors (hr : ConstructorsOf decls table r) (hc : table.Closed)
    {d : Decl} (hd : d ∈ decls) (h : r.addConstructors d = .ok r') : ConstructorsOf decls table r' := by
  cases d with
  | synonym name target =>
      cases h
      exact hr
  | sum name params constructors =>
      exact foldlM_invariant (ConstructorsOf decls table)
        (fun _ _ hmem _ hr h => hr.addConstructor hc hd hmem h) hr h

theorem build_spec (h : build decls = .ok r) :
    ∃ seen table, Introduced.ofDecls decls = .ok seen ∧ TypeTable.TableOf decls table ∧
      ConstructorsOf decls table r := by
  rw [build] at h
  simp only [bind_eq_ok_iff] at h
  obtain ⟨seen, hseen, table, htable, h⟩ := h
  have ht := TypeTable.TableOf.ofDecls htable
  refine ⟨seen, table, hseen, ht, ?_⟩
  refine foldlM_invariant (ConstructorsOf decls table)
    (fun _ _ hd _ hr h => hr.addConstructors ht.closed hd h) ⟨rfl, fun name c hc => ?_⟩ h
  simp at hc

/-- Every accepted list of declarations gives a well-formed registry. -/
theorem build_wellFormed (h : build decls = .ok r) : r.WellFormed := by
  obtain ⟨seen, table, hseen, ht, hr⟩ := build_spec h
  obtain ⟨hnodup, hprim⟩ := Introduced.ofDecls_names hseen
  obtain rfl := hr.table_eq
  refine ⟨ht.closed, ?_, ?_, ?_, fun name c hc => (hr.declaredIn name c hc).field_vars, ?_⟩
  · intro name t hs
    obtain ⟨target, hd⟩ := ht.synonym_declared name t hs
    exact hprim _ hd
  · intro name info hs
    obtain ⟨params, constructors, hd⟩ := ht.sum_declared name info hs
    exact hprim _ hd
  · intro name info hs
    obtain ⟨params, constructors, hd⟩ := ht.sum_declared name info hs
    refine Option.eq_none_iff_forall_not_mem.mpr fun t hsyn => ?_
    obtain ⟨target, hd'⟩ := ht.synonym_declared name t hsyn
    exact absurd (decl_eq_of_name hnodup hd hd' rfl) (by simp)
  · intro name name' c c' hc hc' hname
    obtain ⟨ctors, hd, hsib⟩ := (hr.declaredIn name c hc).declared
    obtain ⟨ctors', hd', hsib'⟩ := (hr.declaredIn name' c' hc').declared
    -- both declarations have the name of the type, so they are one and the same
    have heq := decl_eq_of_name hnodup hd hd' hname
    simp only [Decl.sum.injEq] at heq
    rw [hsib, heq.2.2, ← hsib']
    exact (hr.declaredIn name' c' hc').name_mem

end Registry

end Polytype
