/-
# Polytype.Proofs.Registry.Acceptance — which declarations are accepted.

`Decl.WellFormed` says what a list of declarations has to be like, without any reference to how it is read.
Names are introduced once; type expressions are *scoped* (`TypeExpr.Scoped`), that is, each name takes as
many arguments as it is given and each variable is one that may stand there.  Which names may be used depends
on the place (`Decl.Takes`): every expression may mention every declared sum, a field may mention every
synonym, and the target of a synonym only those declared before it.

The passes over the declarations share tables that are filled step by step.  What a table knows while the
second pass is under way are the names that may be used at that point (`Reads.knows_iff`), so each pass
accepts exactly what the definition asks for, and `exists_build_iff` puts the three together.
-/
import Polytype.Proofs.Registry.WellFormed

namespace Polytype

/-! ## Well-formed declarations -/

/-- Every name is used with as many arguments as it takes, and every variable is allowed. -/
inductive TypeExpr.Scoped (takes : String → Nat → Prop) (allowed : String → Prop) : TypeExpr → Prop
  | con {name : String} {args : List TypeExpr} : takes name args.length →
      (∀ t ∈ args, Scoped takes allowed t) → Scoped takes allowed (.con name args)
  | var {name : String} : allowed name → Scoped takes allowed (.var name)
  | arrow {dom cod : TypeExpr} : Scoped takes allowed dom → Scoped takes allowed cod →
      Scoped takes allowed (.arrow dom cod)
  | tuple {elems : List TypeExpr} : (∀ t ∈ elems, Scoped takes allowed t) →
      Scoped takes allowed (.tuple elems)
  | record {fields : List (String × TypeExpr)} : (∀ f ∈ fields, Scoped takes allowed f.2) →
      Scoped takes allowed (.record fields)

namespace TypeExpr

variable {takes takes' : String → Nat → Prop} {allowed allowed' : String → Prop}

theorem scoped_con {name : String} {args : List TypeExpr} :
    (con name args).Scoped takes allowed ↔ takes name args.length ∧ ∀ t ∈ args, t.Scoped takes allowed :=
  ⟨fun h => by cases h with | con hname hargs => exact ⟨hname, hargs⟩, fun h => .con h.1 h.2⟩

theorem scoped_var {name : String} : (var name).Scoped takes allowed ↔ allowed name :=
  ⟨fun h => by cases h with | var h => exact h, .var⟩

theorem scoped_arrow {dom cod : TypeExpr} :
    (arrow dom cod).Scoped takes allowed ↔ dom.Scoped takes allowed ∧ cod.Scoped takes allowed :=
  ⟨fun h => by cases h with | arrow hd hc => exact ⟨hd, hc⟩, fun h => .arrow h.1 h.2⟩

theorem scoped_tuple {elems : List TypeExpr} :
    (tuple elems).Scoped takes allowed ↔ ∀ t ∈ elems, t.Scoped takes allowed :=
  ⟨fun h => by cases h with | tuple h => exact h, .tuple⟩

theorem scoped_record {fields : List (String × TypeExpr)} :
    (record fields).Scoped takes allowed ↔ ∀ f ∈ fields, f.2.Scoped takes allowed :=
  ⟨fun h => by cases h with | record h => exact h, .record⟩

theorem Scoped.mono {e : TypeExpr} (h : e.Scoped takes allowed)
    (ht : ∀ name count, takes name count → takes' name count) (ha : ∀ x, allowed x → allowed' x) :
    e.Scoped takes' allowed' := by
  induction h with
  | con hname _ ih => exact .con (ht _ _ hname) ih
  | var hx => exact .var (ha _ hx)
  | arrow _ _ ihd ihc => exact .arrow ihd ihc
  | tuple _ ih => exact .tuple ih
  | record _ ih => exact .record ih

/-- Only what the names take and which variables are allowed matters. -/
theorem scoped_congr (ht : ∀ name count, takes name count ↔ takes' name count)
    (ha : ∀ x, allowed x ↔ allowed' x) {e : TypeExpr} :
    e.Scoped takes allowed ↔ e.Scoped takes' allowed' :=
  ⟨fun h => h.mono (fun _ _ => (ht _ _).mp) fun _ => (ha _).mp,
    fun h => h.mono (fun _ _ => (ht _ _).mpr) fun _ => (ha _).mpr⟩

end TypeExpr

namespace Decl

/-- How many arguments a name takes, where some of the synonyms may be used. -/
inductive Takes (decls : List Decl) (synonyms : String → Prop) : String → Nat → Prop
  | prim {name : String} : name ∈ ["Int", "Bool", "Char", "Range"] → Takes decls synonyms name 0
  | synonym {name : String} : synonyms name → Takes decls synonyms name 0
  | sum {name : String} {params : List String} {constructors : List ConstructorDecl} :
      Decl.sum name params constructors ∈ decls → Takes decls synonyms name params.length

/-- One of the declarations introduces the name as a synonym. -/
def Synonym (decls : List Decl) (name : String) : Prop := ∃ target, Decl.synonym name target ∈ decls

/-- What a list of declarations has to be like. -/
structure WellFormed (decls : List Decl) : Prop where
  names_nodup : (decls.map Decl.name).Nodup
  name_not_prim : ∀ d ∈ decls, d.name ∉ ["Int", "Bool", "Char", "Range"]
  params_nodup : ∀ d ∈ decls, d.params.Nodup
  constructors_nodup : (constructorNames decls).Nodup
  target_scoped : ∀ before name target after, decls = before ++ Decl.synonym name target :: after →
    target.Scoped (Takes decls (Synonym before)) fun _ => False
  field_scoped : ∀ d ∈ decls, ∀ c ∈ d.constructors, ∀ t ∈ c.fields,
    t.Scoped (Takes decls (Synonym decls)) (· ∈ d.params)

end Decl

/-! ## Which expressions resolve -/

namespace TypeTable

variable {table : TypeTable} {onVar : String → Except TypeError Ty}

/-- The table gives the name a meaning with so many arguments. -/
def Knows (table : TypeTable) (name : String) (count : Nat) : Prop :=
  ∃ d, table.denote name count = .ok d

theorem exists_resolveList_iff {es : List TypeExpr} :
    (∃ ts, table.resolveList onVar es = .ok ts) ↔ ∀ e ∈ es, ∃ t, table.resolveWith onVar e = .ok t := by
  rw [resolveList_eq_mapM, exists_mapM_iff]

/-- Resolution succeeds exactly on the expressions whose names and variables mean something. -/
theorem exists_resolveWith_iff (table : TypeTable) (onVar : String → Except TypeError Ty) (e : TypeExpr) :
    (∃ t, table.resolveWith onVar e = .ok t) ↔
      e.Scoped table.Knows fun x => ∃ t, onVar x = .ok t := by
  induction e with
  | con name args ih =>
      have hargs : (∃ ts, table.resolveList onVar args = .ok ts) ↔ ∀ e ∈ args, e.Scoped _ _ :=
        exists_resolveList_iff.trans (forall₂_congr ih)
      rw [TypeExpr.scoped_con, resolveWith]
      simp only [bind_eq_ok_iff]
      constructor
      · rintro ⟨t, d, hd, h⟩
        refine ⟨⟨d, hd⟩, ?_⟩
        cases d with
        | closed u =>
            -- arguments are never looked at, but there are none
            rw [List.length_eq_zero_iff.mp (denote_closed hd).1]
            simp
        | sum =>
            simp only [bind_eq_ok_iff] at h
            obtain ⟨ts, hts, -⟩ := h
            exact hargs.mp ⟨ts, hts⟩
      · rintro ⟨⟨d, hd⟩, h⟩
        cases d with
        | closed u => exact ⟨u, _, hd, rfl⟩
        | sum =>
            obtain ⟨ts, hts⟩ := hargs.mpr h
            exact ⟨.sum name ts, .sum, hd, bind_eq_ok_iff.mpr ⟨ts, hts, rfl⟩⟩
  | var name => rw [TypeExpr.scoped_var, resolveWith]
  | arrow dom cod ihd ihc =>
      simp only [TypeExpr.scoped_arrow, ← ihd, ← ihc, resolveWith, bind_eq_ok_iff, pure_eq_ok_iff]
      grind
  | tuple elems ih =>
      rw [TypeExpr.scoped_tuple, ← forall₂_congr ih, ← exists_resolveList_iff]
      simp only [resolveWith, bind_eq_ok_iff, pure_eq_ok_iff]
      grind
  | record fields ih =>
      have hfields := @exists_resolveList_iff table onVar (fields.map Prod.snd)
      rw [List.forall_mem_map] at hfields
      rw [TypeExpr.scoped_record, ← forall₂_congr ih, ← hfields]
      simp only [resolveWith, resolveFields_eq, bind_eq_ok_iff, map_eq_ok_iff, pure_eq_ok_iff]
      grind

end TypeTable

/-! ## The table while it is filled -/

namespace TypeTable

variable {decls before after : List Decl} {table table' : TypeTable} {name : String}

/-- The table has all declared sums, and the synonyms of the declarations read so far. -/
structure Reads (decls before : List Decl) (table : TypeTable) : Prop where
  sums_eq : table.sums = (ofSums decls).sums
  mem_synonyms : ∀ name, name ∈ table.synonyms ↔ Decl.Synonym before name

theorem reads_ofSums (decls : List Decl) : Reads decls [] (ofSums decls) := by
  refine ⟨rfl, fun name => ?_⟩
  simp [ofSums, Decl.Synonym]

theorem Reads.addSynonym {d : Decl} (ht : Reads decls before table)
    (h : table.addSynonym d = .ok table') : Reads decls (before ++ [d]) table' := by
  cases d with
  | sum name params constructors =>
      cases h
      refine ⟨ht.sums_eq, fun x => ?_⟩
      rw [ht.mem_synonyms]
      simp [Decl.Synonym]
  | synonym name target =>
      rw [TypeTable.addSynonym] at h
      simp only [bind_eq_ok_iff, pure_eq_ok_iff] at h
      obtain ⟨t, -, rfl⟩ := h
      refine ⟨ht.sums_eq, fun x => ?_⟩
      rw [Std.ExtTreeMap.mem_insert, ht.mem_synonyms, Std.LawfulEqCmp.compare_eq_iff_eq]
      simp only [Decl.Synonym, List.mem_append, List.mem_singleton, Decl.synonym.injEq]
      grind

theorem Reads.foldlM_addSynonym (ht : Reads decls before table)
    (h : after.foldlM TypeTable.addSynonym table = .ok table') : Reads decls (before ++ after) table' := by
  induction after generalizing before table with
  | nil =>
      rw [List.foldlM_nil, pure_eq_ok_iff] at h
      rw [List.append_nil, ← h]
      exact ht
  | cons d after ih =>
      rw [List.foldlM_cons, bind_eq_ok_iff] at h
      obtain ⟨table₁, hd, h⟩ := h
      rw [← List.singleton_append, ← List.append_assoc]
      exact ih (ht.addSynonym hd) h

theorem knows_iff {count : Nat} :
    table.Knows name count ↔
      (count = 0 ∧ table.closed? name ≠ none) ∨
        (table.closed? name = none ∧ ∃ info, table.sums[name]? = some info ∧ count = info.params.length) := by
  unfold Knows denote
  cases table.closed? name with
  | some t =>
      by_cases hcount : count = 0 <;> simp [hcount, Fault.raise]
  | none =>
      cases table.sums[name]? with
      | none => simp
      | some info =>
          by_cases hcount : count = info.params.length <;> simp [hcount, Fault.raise]

/-- A table that reads declarations with distinct names knows the names that may be used. -/
theorem Reads.knows_iff (ht : Reads decls before table) (hbefore : before ⊆ decls)
    (hnames : (decls.map Decl.name).Nodup) (hprim : ∀ d ∈ decls, Prim.named? d.name = none)
    {count : Nat} :
    table.Knows name count ↔ Decl.Takes decls (Decl.Synonym before) name count := by
  have hclosed : table.closed? name = none ↔ Prim.named? name = none ∧ ¬ Decl.Synonym before name := by
    rw [closed?, ← ht.mem_synonyms]
    cases Prim.named? name <;> simp
  rw [TypeTable.knows_iff, ht.sums_eq]
  simp only [getElem?_ofSums hnames, hclosed, ne_eq]
  constructor
  · rintro (⟨rfl, h⟩ | ⟨-, info, ⟨params, constructors, hd, rfl⟩, rfl⟩)
    · by_cases hsyn : Decl.Synonym before name
      · exact .synonym hsyn
      · refine .prim ?_
        by_contra hno
        exact h ⟨named?_eq_none_iff.mpr hno, hsyn⟩
    · exact .sum hd
  · intro h
    cases h with
    | prim h => exact Or.inl ⟨rfl, fun hno => named?_eq_none_iff.mp hno.1 h⟩
    | synonym h => exact Or.inl ⟨rfl, fun hno => hno.2 h⟩
    | sum hd =>
        -- the name of a sum is declared once, so it is none of the synonyms
        refine Or.inr ⟨⟨hprim _ hd, ?_⟩, _, ⟨_, _, hd, rfl⟩, rfl⟩
        rintro ⟨target, hsyn⟩
        exact absurd (decl_eq_of_name hnames hd (hbefore hsyn) rfl) (by simp)

/-! ## The second pass -/

theorem exists_addSynonym_iff {d : Decl} :
    (∃ table', table.addSynonym d = .ok table') ↔
      ∀ name target, d = .synonym name target → target.Scoped table.Knows fun _ => False := by
  cases d with
  | sum name params constructors => simp [TypeTable.addSynonym]
  | synonym name target =>
      have hnone : ∀ x, (∃ t, noVariable name x = .ok t) ↔ False := by
        simp [noVariable, Fault.raise]
      have hscoped := exists_resolveWith_iff table (noVariable name) target
      simp only [hnone] at hscoped
      simp only [TypeTable.addSynonym, bind_eq_ok_iff, pure_eq_ok_iff, Decl.synonym.injEq, and_imp,
        forall_apply_eq_imp_iff, ← hscoped]
      grind

/-- A member of a list is its head, with nothing before it, or a member of its tail. -/
theorem forall_split_cons {α : Type} {a : α} {l : List α} {P : List α → α → Prop} :
    (∀ xs y ys, a :: l = xs ++ y :: ys → P xs y) ↔
      P [] a ∧ ∀ xs y ys, l = xs ++ y :: ys → P (a :: xs) y := by
  constructor
  · exact fun h => ⟨h [] a l rfl, fun xs y ys heq => h (a :: xs) y ys (by simp [heq])⟩
  · rintro ⟨ha, hl⟩ xs y ys heq
    cases xs with
    | nil =>
        cases heq
        exact ha
    | cons x xs =>
        cases heq
        exact hl xs y ys rfl

/-- The second pass accepts the targets that mention earlier synonyms only. -/
theorem Reads.exists_foldlM_iff (ht : Reads decls before table) (hdecls : decls = before ++ after)
    (hnames : (decls.map Decl.name).Nodup) (hprim : ∀ d ∈ decls, Prim.named? d.name = none) :
    (∃ table', after.foldlM TypeTable.addSynonym table = .ok table') ↔
      ∀ between d rest, after = between ++ d :: rest → ∀ name target, d = .synonym name target →
        target.Scoped (Decl.Takes decls (Decl.Synonym (before ++ between))) fun _ => False := by
  -- by what is still to be read: each step moves one declaration over to `before`
  induction after generalizing before table with
  | nil => simp [pure, Except.pure]
  | cons d after ih =>
      have hhere : (∃ table₁, table.addSynonym d = .ok table₁) ↔ ∀ name target,
          d = .synonym name target →
            target.Scoped (Decl.Takes decls (Decl.Synonym (before ++ []))) fun _ => False := by
        rw [exists_addSynonym_iff, List.append_nil]
        refine forall₃_congr fun name target _ => TypeExpr.scoped_congr (fun x count => ?_) (by simp)
        exact ht.knows_iff (by simp [hdecls]) hnames hprim
      have hlater : ∀ table₁, table.addSynonym d = .ok table₁ →
          ((∃ table', after.foldlM TypeTable.addSynonym table₁ = .ok table') ↔ _) := fun table₁ h =>
        ih (ht.addSynonym h) (by simp [hdecls])
      rw [forall_split_cons, ← hhere]
      simp only [List.append_assoc, List.singleton_append] at hlater
      simp only [List.foldlM_cons, bind_eq_ok_iff]
      constructor
      · rintro ⟨table', table₁, hd, h⟩
        exact ⟨⟨table₁, hd⟩, (hlater table₁ hd).mp ⟨table', h⟩⟩
      · rintro ⟨⟨table₁, hd⟩, h⟩
        obtain ⟨table', h⟩ := (hlater table₁ hd).mpr h
        exact ⟨table', table₁, hd, h⟩

end TypeTable

/-! ## The third pass -/

namespace Registry

variable {decls : List Decl} {table : TypeTable} {r r' : Registry}

theorem exists_paramVariable_iff {owner x : String} {params : List String} :
    (∃ t, TypeTable.paramVariable owner params x = .ok t) ↔ x ∈ params := by
  have hidx : params.idxOf? x = none ↔ x ∉ params := List.idxOf?_eq_none_iff
  unfold TypeTable.paramVariable
  cases h : params.idxOf? x with
  | some i =>
      have hx : x ∈ params := by
        by_contra hx
        simp [hidx.mpr hx] at h
      simp [hx]
  | none => simp [hidx.mp h, Fault.raise]

theorem exists_addConstructor_iff {typeName : String} {params siblings : List String}
    {c : ConstructorDecl} :
    (∃ r', r.addConstructor typeName params siblings c = .ok r') ↔
      ∀ t ∈ c.fields, t.Scoped r.toTypeTable.Knows (· ∈ params) := by
  have hfield : ∀ t : TypeExpr, t.Scoped r.toTypeTable.Knows (· ∈ params) ↔ _ := fun t =>
    (TypeExpr.scoped_congr (fun _ _ => Iff.rfl) fun x => exists_paramVariable_iff.symm).trans
      (TypeTable.exists_resolveWith_iff _ (TypeTable.paramVariable typeName params) t).symm
  simp only [hfield, ← exists_mapM_iff, addConstructor, bind_eq_ok_iff, pure_eq_ok_iff]
  grind

theorem addConstructor_table {typeName : String} {params siblings : List String} {c : ConstructorDecl}
    (h : r.addConstructor typeName params siblings c = .ok r') : r'.toTypeTable = r.toTypeTable := by
  simp only [addConstructor, bind_eq_ok_iff, pure_eq_ok_iff] at h
  obtain ⟨fields, -, rfl⟩ := h
  rfl

theorem addConstructors_eq (r : Registry) (d : Decl) :
    r.addConstructors d =
      d.constructors.foldlM (addConstructor d.name d.params (d.constructors.map (·.name))) r := by
  cases d <;> rfl

theorem addConstructors_table {d : Decl} (h : r.addConstructors d = .ok r') :
    r'.toTypeTable = r.toTypeTable := by
  rw [addConstructors_eq] at h
  exact foldlM_invariant (fun r' => r'.toTypeTable = r.toTypeTable)
    (fun _ _ _ _ hr h => (addConstructor_table h).trans hr) rfl h

theorem foldlM_addConstructors_table (h : decls.foldlM addConstructors r = .ok r') :
    r'.toTypeTable = r.toTypeTable :=
  foldlM_invariant (fun r' => r'.toTypeTable = r.toTypeTable)
    (fun _ _ _ _ hr h => (addConstructors_table h).trans hr) rfl h

/-- The third pass accepts the fields that mention declared types and parameters. -/
theorem exists_foldlM_addConstructors_iff (hr : r.toTypeTable = table) :
    (∃ r', decls.foldlM addConstructors r = .ok r') ↔
      ∀ d ∈ decls, ∀ c ∈ d.constructors, ∀ t ∈ c.fields, t.Scoped table.Knows (· ∈ d.params) := by
  refine exists_foldlM_iff (fun r => r.toTypeTable = table) (fun r hr d _ => ?_)
    (fun r d _ r' hr h => (addConstructors_table h).trans hr) hr
  rw [addConstructors_eq]
  refine exists_foldlM_iff (fun r => r.toTypeTable = table) (fun r hr c _ => ?_)
    (fun r c _ r' hr h => (addConstructor_table h).trans hr) hr
  rw [exists_addConstructor_iff, hr]

/-- Declarations are accepted exactly when they are well formed. -/
theorem exists_build_iff (decls : List Decl) :
    (∃ r, build decls = .ok r) ↔ Decl.WellFormed decls := by
  have hnew : ∀ names, NewNames [] names ↔ names.Nodup := by simp [NewNames]
  have hfirst := @Introduced.exists_foldlM_addDecl_iff decls {}
  simp only [List.map_nil, hnew] at hfirst
  simp only [build, bind_eq_ok_iff]
  constructor
  · rintro ⟨r, seen, hseen, table, htable, h⟩
    obtain ⟨hnames, hdecls, hcs⟩ := hfirst.mp ⟨seen, hseen⟩
    have hprim := fun d hd => (hdecls d hd).1
    have hreads := (TypeTable.reads_ofSums decls).foldlM_addSynonym htable
    refine ⟨hnames, fun d hd => named?_eq_none_iff.mp (hprim d hd), fun d hd => (hdecls d hd).2, hcs,
      fun before name target after heq => ?_, fun d hd c hc t ht => ?_⟩
    · exact ((TypeTable.reads_ofSums decls).exists_foldlM_iff rfl hnames hprim).mp ⟨table, htable⟩
        before _ after heq name target rfl
    · refine (TypeExpr.scoped_congr (fun x count => ?_) fun _ => Iff.rfl).mp
        ((exists_foldlM_addConstructors_iff rfl).mp ⟨r, h⟩ d hd c hc t ht)
      exact hreads.knows_iff (List.Subset.refl decls) hnames hprim
  · intro hwf
    have hprim := fun d hd => named?_eq_none_iff.mpr (hwf.name_not_prim d hd)
    obtain ⟨seen, hseen⟩ := hfirst.mpr
      ⟨hwf.names_nodup, fun d hd => ⟨hprim d hd, hwf.params_nodup d hd⟩, hwf.constructors_nodup⟩
    obtain ⟨table, htable⟩ :=
      ((TypeTable.reads_ofSums decls).exists_foldlM_iff rfl hwf.names_nodup hprim).mpr (by
        rintro before d after heq name target rfl
        exact hwf.target_scoped before name target after heq)
    have hreads := (TypeTable.reads_ofSums decls).foldlM_addSynonym htable
    obtain ⟨r, h⟩ := (exists_foldlM_addConstructors_iff (r := { table with }) rfl).mpr
      fun d hd c hc t ht => (TypeExpr.scoped_congr (fun x count => hreads.knows_iff
        (List.Subset.refl decls) hwf.names_nodup hprim) fun _ => Iff.rfl).mpr
          (hwf.field_scoped d hd c hc t ht)
    exact ⟨r, seen, hseen, table, htable, h⟩

/-- The table of an accepted list of declarations has all its sums and synonyms. -/
theorem build_reads (h : build decls = .ok r) : TypeTable.Reads decls decls r.toTypeTable := by
  rw [build] at h
  simp only [bind_eq_ok_iff] at h
  obtain ⟨-, -, table, htable, h⟩ := h
  rw [foldlM_addConstructors_table h]
  exact (TypeTable.reads_ofSums decls).foldlM_addSynonym htable

end Registry

/-! ## Errors -/

/-- The faults of declarations: a name declared twice, or used without meaning or with the wrong number of
arguments. -/
inductive Fault.OfDeclarations : Fault → Prop
  | duplicateDeclaration (name : String) (owner : Option String) :
      OfDeclarations (.duplicateDeclaration name owner)
  | unknownType (name : String) (reason : UnknownType) : OfDeclarations (.unknownType name reason)
  | typeArity (name : String) (expected actual : Nat) :
      OfDeclarations (.typeArity name expected actual)

/-- The computation fails with faults of declarations only. -/
abbrev FailsOnDeclarations {α : Type} (x : Except TypeError α) : Prop :=
  FailsOnly (fun e : TypeError => e.fault.OfDeclarations) x

namespace FailsOnDeclarations

theorem raise {α : Type} {f : Fault} (h : f.OfDeclarations) :
    FailsOnDeclarations (f.raise : Except TypeError α) := by
  intro e he
  cases he
  exact h

theorem raise_bind {α β : Type} {f : Fault} (h : f.OfDeclarations) (k : α → Except TypeError β) :
    FailsOnDeclarations (f.raise >>= k) := raise h

theorem denote (table : TypeTable) (name : String) (count : Nat) :
    FailsOnDeclarations (table.denote name count) := by
  unfold TypeTable.denote
  split
  · split
    · exact .ok _
    · exact raise (.typeArity _ _ _)
  · split
    · intro e he
      cases he
      exact .unknownType _ _
    · split
      · exact .ok _
      · exact raise (.typeArity _ _ _)

section Resolve

variable {table : TypeTable} {onVar : String → Except TypeError Ty}

theorem resolveWith (hvar : ∀ x, FailsOnDeclarations (onVar x)) (e : TypeExpr) :
    FailsOnDeclarations (table.resolveWith onVar e) := by
  have hlist : ∀ {es : List TypeExpr}, (∀ e ∈ es, FailsOnDeclarations (table.resolveWith onVar e)) →
      FailsOnDeclarations (table.resolveList onVar es) := by
    intro es ih
    rw [TypeTable.resolveList_eq_mapM]
    exact .mapM ih
  induction e with
  | con name args ih =>
      rw [TypeTable.resolveWith]
      refine (denote table name args.length).bind fun d => ?_
      cases d with
      | closed t => exact .ok t
      | sum => exact (hlist ih).bind fun ts => .ok _
  | var name => exact hvar name
  | arrow dom cod ihd ihc =>
      rw [TypeTable.resolveWith]
      exact ihd.bind fun a => ihc.bind fun b => .ok _
  | tuple elems ih =>
      rw [TypeTable.resolveWith]
      exact (hlist ih).bind fun ts => .ok _
  | record fields ih =>
      rw [TypeTable.resolveWith, TypeTable.resolveFields_eq, map_eq_pure_bind]
      exact ((hlist (List.forall_mem_map.mpr ih)).bind fun ts => .ok _).bind fun fs => .ok _

end Resolve

theorem addDecl (seen : Introduced) (d : Decl) : FailsOnDeclarations (seen.addDecl d) := by
  have hconstructor : ∀ (typeName : String) (known : List (String × String)) (c : ConstructorDecl),
      FailsOnDeclarations (Introduced.addConstructor typeName known c) := by
    intro typeName known c
    unfold Introduced.addConstructor
    split
    · exact raise (.duplicateDeclaration _ _)
    · exact .ok _
  unfold Introduced.addDecl
  cases d with
  | synonym name target =>
      dsimp only
      split
      · exact raise_bind (.duplicateDeclaration _ _) _
      · exact .ok _
  | sum name params constructors =>
      dsimp only
      split
      · exact raise_bind (.duplicateDeclaration _ _) _
      · split
        · exact raise_bind (.duplicateDeclaration _ _) _
        · exact (FailsOnly.foldlM (hconstructor name) _ _).bind fun known => .ok _

theorem build (decls : List Decl) : FailsOnDeclarations (Registry.build decls) := by
  rw [Registry.build]
  refine (FailsOnly.foldlM addDecl _ _).bind fun _ => ?_
  refine (FailsOnly.foldlM (fun table d => ?_) _ _).bind fun table => ?_
  · cases d with
    | sum name params constructors => exact .ok table
    | synonym name target =>
        refine (resolveWith (fun x => raise (.unknownType _ _)) target).bind fun t => .ok _
  · refine FailsOnly.foldlM (fun r d => ?_) _ _
    rw [Registry.addConstructors_eq]
    refine FailsOnly.foldlM (fun r c => ?_) _ _
    refine (FailsOnly.mapM fun t _ => resolveWith (fun x => ?_) t).bind fun fields => .ok _
    unfold TypeTable.paramVariable
    split
    · exact .ok _
    · exact raise (.unknownType _ _)

end FailsOnDeclarations

/-- **Declarations are accepted exactly when they are well formed.** All others are rejected for a name that
is declared twice, means nothing, or is used with the wrong number of arguments. -/
theorem build_accepts_wellFormed (decls : List Decl) :
    ((∃ r, Registry.build decls = .ok r) ↔ Decl.WellFormed decls) ∧
      ((∃ e, Registry.build decls = .error e ∧ e.fault.OfDeclarations) ↔ ¬ Decl.WellFormed decls) := by
  have hiff := Registry.exists_build_iff decls
  refine ⟨hiff, ?_⟩
  rw [← hiff]
  cases h : Registry.build decls with
  | ok r => simp
  | error e =>
      have he := FailsOnDeclarations.build decls e h
      simpa using he

end Polytype
