/-
# Polytype.Proofs.Registry.Erasure — declarations without their synonyms.

A synonym is an abbreviation.  So it may be written out everywhere (`TypeExpr.expand`) and its declaration
dropped (`Decl.eraseSynonyms`).  The targets are expanded in the order of the declarations, so what a
synonym expands to mentions no synonyms any more.

Resolving an expression, and resolving the expanded one in the table without synonyms, go the same way
(`resolveWith_expand`): the names that are left mean the same in both tables, and where a synonym stood there
is now an expression for the type that the synonym stood for.  The proof follows the recursion of
resolution, which is written once for all effects; so is the lemma, over any relation between
computations that passes through sequences (`Sequential`).  With it, the three passes over the declarations go
side by side with those over the erased ones, and end with the same constructors (`build_eraseSynonyms`).
-/
import Polytype.Proofs.Registry.Acceptance

namespace Polytype

/-! ## Writing out synonyms -/

/-- What each synonym stands for, written without synonyms. -/
abbrev Expansion := Std.ExtTreeMap String TypeExpr

namespace TypeExpr

mutual
/-- Writes out the synonyms of a type expression.  Synonyms take no arguments. -/
def expand (x : Expansion) : TypeExpr → TypeExpr
  | .con name args =>
    if args.isEmpty then x[name]?.getD (.con name []) else .con name (expandList x args)
  | .var name => .var name
  | .arrow dom cod => .arrow (expand x dom) (expand x cod)
  | .tuple elems => .tuple (expandList x elems)
  | .record fields => .record (expandFields x fields)
/-- Writes out the synonyms of every member of a list. -/
def expandList (x : Expansion) : List TypeExpr → List TypeExpr
  | [] => []
  | t :: ts => expand x t :: expandList x ts
/-- Writes out the synonyms of labelled expressions. -/
def expandFields (x : Expansion) : List (String × TypeExpr) → List (String × TypeExpr)
  | [] => []
  | (l, t) :: fs => (l, expand x t) :: expandFields x fs
end

theorem expandList_eq (x : Expansion) (ts : List TypeExpr) : expandList x ts = ts.map (expand x) := by
  induction ts with
  | nil => rfl
  | cons t ts ih => rw [expandList, ih, List.map_cons]

theorem expandFields_eq (x : Expansion) (fs : List (String × TypeExpr)) :
    expandFields x fs = fs.map fun f => (f.1, expand x f.2) := by
  induction fs with
  | nil => rfl
  | cons f fs ih => rw [expandFields, ih, List.map_cons]

theorem expand_of_some {x : Expansion} {name : String} {t : TypeExpr} (h : x[name]? = some t) :
    (con name []).expand x = t := by
  rw [expand, h]
  rfl

theorem expand_of_none {x : Expansion} {name : String} (h : x[name]? = none) (args : List TypeExpr) :
    (con name args).expand x = .con name (args.map (expand x)) := by
  cases args with
  | nil =>
      rw [expand, h]
      rfl
  | cons t ts => rw [expand, expandList_eq]; rfl

/-- None of the names occurs in the expression. -/
def FreeOf (names : String → Prop) (e : TypeExpr) : Prop :=
  e.Scoped (fun name _ => ¬ names name) fun _ => True

end TypeExpr

/-- Adds what the synonym of a declaration stands for, if it is one. -/
def Expansion.addSynonym (x : Expansion) : Decl → Expansion
  | .sum _ _ _ => x
  | .synonym name target => x.insert name (target.expand x)

/-- What the synonyms of a list of declarations stand for. -/
def Expansion.ofDecls (decls : List Decl) : Expansion := decls.foldl addSynonym ∅

/-- Writes out the synonyms in the fields of a constructor. -/
def ConstructorDecl.expand (x : Expansion) (c : ConstructorDecl) : ConstructorDecl :=
  { c with fields := c.fields.map (TypeExpr.expand x) }

namespace Decl

/-- The declaration with its synonyms written out, unless it declares one. -/
def expand? (x : Expansion) : Decl → Option Decl
  | .sum name params constructors => some (.sum name params (constructors.map (.expand x)))
  | .synonym _ _ => none

/-- The declarations of sum types, with all synonyms written out. -/
def eraseSynonyms (decls : List Decl) : List Decl := decls.filterMap (expand? (.ofDecls decls))

theorem mem_eraseSynonyms {decls : List Decl} {d : Decl} :
    d ∈ eraseSynonyms decls ↔ ∃ name params constructors, Decl.sum name params constructors ∈ decls ∧
      Decl.sum name params (constructors.map (.expand (.ofDecls decls))) = d := by
  rw [eraseSynonyms, List.mem_filterMap]
  constructor
  · rintro ⟨d', hd', hexpand⟩
    cases d' with
    | synonym name target => cases hexpand
    | sum name params constructors => exact ⟨name, params, constructors, hd', Option.some.inj hexpand⟩
  · rintro ⟨name, params, constructors, hd, rfl⟩
    exact ⟨_, hd, rfl⟩

end Decl

theorem map_name_expand (x : Expansion) (cs : List ConstructorDecl) :
    (cs.map (ConstructorDecl.expand x)).map (·.name) = cs.map (·.name) := by
  rw [List.map_map]
  rfl

/-! ## Resolution of expanded expressions -/

/-- The errors have the same cause.  What is suggested may be different. -/
def SameFault (e e' : TypeError) : Prop := e'.fault = e.fault

theorem SameFault.refl (e : TypeError) : SameFault e e := rfl

namespace TypeTable

variable {m : Type → Type} [Monad m] [LawfulMonad m] [MonadLiftT (Except TypeError) m]
  [LawfulMonadLiftT (Except TypeError) m]

/-- An expression that has a meaning without variables has it wherever it stands. -/
theorem resolveWith_of_closed {table : TypeTable} {synonym : String} (onVar : String → m Ty)
    (e : TypeExpr) : ∀ {t : Ty}, table.resolveWith (noVariable synonym) e = .ok t →
      table.resolveWith onVar e = pure t := by
  have hlist : ∀ {es : List TypeExpr} {ts : List Ty},
      (∀ e ∈ es, ∀ {t : Ty}, table.resolveWith (noVariable synonym) e = .ok t →
        table.resolveWith onVar e = pure t) →
      table.resolveList (noVariable synonym) es = .ok ts → table.resolveList onVar es = pure ts := by
    intro es ts ih h
    induction es generalizing ts with
    | nil =>
        rw [resolveList, pure_eq_ok_iff] at h
        rw [resolveList, h]
    | cons e es ihes =>
        rw [resolveList] at h
        simp only [bind_eq_ok_iff, pure_eq_ok_iff] at h
        obtain ⟨u, hu, us, hus, rfl⟩ := h
        rw [resolveList, ih e List.mem_cons_self hu, pure_bind,
          ihes (fun e' he' => ih e' (List.mem_cons_of_mem e he')) hus, pure_bind]
  induction e with
  | con name args ih =>
      intro t h
      rw [resolveWith, bind_eq_ok_iff] at h
      obtain ⟨d, hd, h⟩ := h
      have hlift : (liftM (table.denote name args.length) : m Denotation) = pure d := by
        rw [show table.denote name args.length = .ok d from hd]
        exact monadLift_pure d
      rw [resolveWith, hlift, pure_bind]
      cases d with
      | closed u =>
          rw [pure_eq_ok_iff] at h
          rw [h]
      | sum =>
          simp only [bind_eq_ok_iff, pure_eq_ok_iff] at h
          obtain ⟨ts, hts, rfl⟩ := h
          rw [hlist ih hts, pure_bind]
  | var name => exact fun h => absurd h raise_ne_ok
  | arrow dom cod ihd ihc =>
      intro t h
      rw [resolveWith] at h
      simp only [bind_eq_ok_iff, pure_eq_ok_iff] at h
      obtain ⟨a, ha, b, hb, rfl⟩ := h
      rw [resolveWith, ihd ha, pure_bind, ihc hb, pure_bind]
  | tuple elems ih =>
      intro t h
      rw [resolveWith] at h
      simp only [bind_eq_ok_iff, pure_eq_ok_iff] at h
      obtain ⟨ts, hts, rfl⟩ := h
      rw [resolveWith, hlist ih hts, pure_bind]
  | record fields ih =>
      intro t h
      rw [resolveWith, resolveFields_eq] at h
      simp only [bind_eq_ok_iff, map_eq_ok_iff, pure_eq_ok_iff] at h
      obtain ⟨-, ⟨ts, hts, rfl⟩, rfl⟩ := h
      rw [resolveWith, resolveFields_eq, hlist (List.forall_mem_map.mpr ih) hts, map_pure, pure_bind]

/-- The relation holds of computations that give the same result, or fail for the same cause, at once, and
passes through sequences. -/
structure Sequential (R : ∀ ⦃α : Type⦄, m α → m α → Prop) : Prop where
  pure : ∀ {α : Type} (a : α), R (pure a) (pure a)
  error : ∀ {α : Type} {e e' : TypeError}, SameFault e e' →
    R (liftM (.error e : Except TypeError α)) (liftM (.error e' : Except TypeError α))
  bind : ∀ {α β : Type} {x y : m α} {f g : α → m β}, R x y → (∀ a, R (f a) (g a)) →
    R (x >>= f) (y >>= g)

omit [LawfulMonad m] in
theorem Sequential.lift {R : ∀ ⦃α : Type⦄, m α → m α → Prop} (hR : Sequential R) {α : Type}
    {x y : Except TypeError α} (h : SameOutcome SameFault id x y) : R (liftM x) (liftM y) := by
  cases h with
  | ok a =>
      have hlift : (liftM (.ok a : Except TypeError α) : m α) = Pure.pure a := monadLift_pure a
      rw [id_eq, hlift]
      exact hR.pure a
  | error h => exact hR.error h

/-- The table has synonyms, and the other table has none; the expansion says how to do without them. -/
structure Expands (x : Expansion) (table table' : TypeTable) : Prop where
  sums_eq : table'.sums = table.sums
  no_synonyms : table'.synonyms = ∅
  synonyms : ∀ name : String, (table.synonyms[name]? = none ∧ x[name]? = none) ∨
    ∃ t e, table.synonyms[name]? = some t ∧ x[name]? = some e ∧ Prim.named? name = none ∧
      table'.resolveWith (noVariable name) e = .ok t

/-- The synonyms of the table stand without arguments. -/
def AppliesNone (table : TypeTable) (e : TypeExpr) : Prop :=
  e.Scoped (fun name count => name ∈ table.synonyms → count = 0) fun _ => True

section Expand

variable {x : Expansion} {table table' : TypeTable}

/-- A name that is no synonym means the same in both tables. -/
theorem Expands.denote (hx : Expands x table table') {name : String} (h : table.synonyms[name]? = none)
    (count : Nat) : SameOutcome SameFault id (table.denote name count) (table'.denote name count) := by
  have hclosed : table'.closed? name = table.closed? name := by
    rw [closed?, closed?, hx.no_synonyms, h]
    simp
  rw [TypeTable.denote, TypeTable.denote, hclosed, hx.sums_eq]
  split
  · split
    · exact .ok _
    · exact .error rfl
  · split
    · exact .error rfl
    · split
      · exact .ok _
      · exact .error rfl

theorem mem_synonyms_of_getElem? {name : String} {t : Ty} (h : table.synonyms[name]? = some t) :
    name ∈ table.synonyms :=
  Std.ExtTreeMap.mem_iff_isSome_getElem?.mpr (by simp [h])

theorem resolveWith_synonym {onVar : String → m Ty} {name : String} {t : Ty}
    (hprim : Prim.named? name = none) (h : table.synonyms[name]? = some t) :
    table.resolveWith onVar (.con name []) = pure t := by
  have hres : table.resolveWith (noVariable name) (.con name []) = .ok t := by
    rw [resolveWith, TypeTable.denote, closed?, hprim]
    simp only [h]
    rfl
  exact resolveWith_of_closed onVar _ hres

/-- Resolution of an expression goes the same way as that of the expanded one. -/
theorem resolveWith_expand {R : ∀ ⦃α : Type⦄, m α → m α → Prop} (hR : Sequential R)
    (hx : Expands x table table') {onVar : String → m Ty} (hvar : ∀ v, R (onVar v) (onVar v))
    (e : TypeExpr) : table.AppliesNone e →
      R (table.resolveWith onVar e) (table'.resolveWith onVar (e.expand x)) := by
  have hlist : ∀ {es : List TypeExpr}, (∀ e ∈ es,
      R (table.resolveWith onVar e) (table'.resolveWith onVar (e.expand x))) →
      R (table.resolveList onVar es) (table'.resolveList onVar (es.map (TypeExpr.expand x))) := by
    intro es ih
    induction es with
    | nil => exact hR.pure []
    | cons e es ihes =>
        rw [List.map_cons, resolveList, resolveList]
        refine hR.bind (ih e List.mem_cons_self) fun t => ?_
        exact hR.bind (ihes fun e' he' => ih e' (List.mem_cons_of_mem e he')) fun ts => hR.pure _
  induction e with
  | con name args ih =>
      intro he
      obtain ⟨hcount, hargs⟩ := TypeExpr.scoped_con.mp he
      rcases hx.synonyms name with ⟨hsyn, hxe⟩ | ⟨t, e, hsyn, hxe, hprim, hres⟩
      · -- the name is left as it is, and the arguments are expanded
        rw [TypeExpr.expand_of_none hxe, resolveWith, resolveWith, List.length_map]
        refine hR.bind (hR.lift (hx.denote hsyn args.length)) fun den => ?_
        cases den with
        | closed t => exact hR.pure t
        | sum => exact hR.bind (hlist fun e h => ih e h (hargs e h)) fun ts => hR.pure _
      · -- without arguments, a synonym and its expansion both give the type that it stands for
        rw [List.length_eq_zero_iff.mp (hcount (mem_synonyms_of_getElem? hsyn)),
          TypeExpr.expand_of_some hxe, resolveWith_synonym hprim hsyn, resolveWith_of_closed onVar e hres]
        exact hR.pure t
  | var name => exact fun _ => hvar name
  | arrow dom cod ihd ihc =>
      intro he
      obtain ⟨hd, hc⟩ := TypeExpr.scoped_arrow.mp he
      rw [TypeExpr.expand, resolveWith, resolveWith]
      exact hR.bind (ihd hd) fun a => hR.bind (ihc hc) fun b => hR.pure _
  | tuple elems ih =>
      intro he
      rw [TypeExpr.expand, TypeExpr.expandList_eq, resolveWith, resolveWith]
      refine hR.bind (hlist fun e h => ih e h (TypeExpr.scoped_tuple.mp he e h)) fun ts => hR.pure _
  | record fields ih =>
      intro he
      have hfields : ∀ f ∈ fields,
          R (table.resolveWith onVar f.2) (table'.resolveWith onVar (f.2.expand x)) :=
        fun f h => ih f h (TypeExpr.scoped_record.mp he f h)
      have hres := hlist (List.forall_mem_map.mpr hfields)
      rw [List.map_map] at hres
      rw [TypeExpr.expand, TypeExpr.expandFields_eq, resolveWith, resolveWith, resolveFields_eq,
        resolveFields_eq, map_eq_pure_bind, map_eq_pure_bind, List.map_map, List.map_map]
      exact hR.bind (hR.bind hres fun ts => hR.pure _) fun fs => hR.pure _

/-! ## No synonyms are left -/

/-- No synonym of the first table occurs in what has a meaning in the second one. -/
theorem Expands.freeOf_of_resolveWith (hx : Expands x table table')
    (hsum : ∀ (name : String) (info : SumInfo), table.sums[name]? = some info →
      table.synonyms[name]? = none)
    {onVar : String → Except TypeError Ty} {e : TypeExpr} {t : Ty}
    (h : table'.resolveWith onVar e = .ok t) : e.FreeOf (· ∈ table.synonyms) := by
  refine ((exists_resolveWith_iff table' onVar e).mp ⟨t, h⟩).mono ?_ fun _ _ => trivial
  intro name count hknows hmem
  rcases hx.synonyms name with ⟨hsyn, -⟩ | ⟨t, -, hsyn, -, hprim, -⟩
  · simp [Std.ExtTreeMap.mem_iff_isSome_getElem?, hsyn] at hmem
  · -- the second table has no synonyms, and no sum has the name of a synonym
    have hclosed : table'.closed? name = none := by simp [closed?, hprim, hx.no_synonyms]
    rcases TypeTable.knows_iff.mp hknows with ⟨-, h⟩ | ⟨-, info, hinfo, -⟩
    · exact h hclosed
    · rw [hx.sums_eq] at hinfo
      simp [hsum name info hinfo] at hsyn

/-- No synonym occurs in an expanded expression. -/
theorem Expands.freeOf_expand (hx : Expands x table table')
    (hsum : ∀ (name : String) (info : SumInfo), table.sums[name]? = some info →
      table.synonyms[name]? = none)
    {e : TypeExpr} (he : table.AppliesNone e) : (e.expand x).FreeOf (· ∈ table.synonyms) := by
  induction he with
  | @con name args hcount _ ih =>
      rcases hx.synonyms name with ⟨hsyn, hxe⟩ | ⟨t, e, hsyn, hxe, -, hres⟩
      · rw [TypeExpr.expand_of_none hxe]
        refine .con (fun hmem => ?_) (List.forall_mem_map.mpr ih)
        simp [Std.ExtTreeMap.mem_iff_isSome_getElem?, hsyn] at hmem
      · rw [List.length_eq_zero_iff.mp (hcount (mem_synonyms_of_getElem? hsyn)), TypeExpr.expand_of_some hxe]
        exact hx.freeOf_of_resolveWith hsum hres
  | var h => exact .var h
  | arrow _ _ ihd ihc => exact .arrow ihd ihc
  | tuple _ ih =>
      rw [TypeExpr.expand, TypeExpr.expandList_eq]
      exact .tuple (List.forall_mem_map.mpr ih)
  | record _ ih =>
      rw [TypeExpr.expand, TypeExpr.expandFields_eq]
      exact .record (List.forall_mem_map.mpr ih)

end Expand

/-! ## The second pass -/

theorem ofSums_expand (x : Expansion) (decls : List Decl) :
    ofSums (decls.filterMap (Decl.expand? x)) = ofSums decls := by
  have hinfo : ∀ d : Decl, (d.expand? x).bind Decl.sumInfo? = d.sumInfo? := by
    intro d
    cases d with
    | synonym name target => rfl
    | sum name params constructors =>
        simp only [Decl.expand?, Option.bind_some, Decl.sumInfo?, map_name_expand]
  rw [ofSums, ofSums, List.filterMap_filterMap]
  simp only [hinfo]

/-- Without synonyms the second pass has nothing to do. -/
theorem foldlM_addSynonym_expand (x : Expansion) (decls : List Decl) (table : TypeTable) :
    (decls.filterMap (Decl.expand? x)).foldlM addSynonym table = .ok table := by
  induction decls with
  | nil => rfl
  | cons d decls ih =>
      cases d with
      | synonym name target => exact ih
      | sum name params constructors => exact ih

section Synonyms

variable {x : Expansion} {table table₁ table' : TypeTable}

theorem sequential_sameOutcome :
    Sequential (m := Except TypeError) fun _ a b => SameOutcome SameFault id a b where
  pure a := .ok a
  error h := .error h
  bind hxy hfg := hxy.bind hfg

/-- Where every name is known with its number of arguments, synonyms have none. -/
theorem appliesNone_of_scoped {allowed : String → Prop} {e : TypeExpr}
    (h : e.Scoped table.Knows allowed) : table.AppliesNone e := by
  refine h.mono (fun name count hknows hmem => ?_) fun _ _ => trivial
  have hclosed : table.closed? name ≠ none := by
    rw [closed?]
    split
    · simp
    · exact Option.isSome_iff_ne_none.mp (Std.ExtTreeMap.mem_iff_isSome_getElem?.mp hmem)
  rcases TypeTable.knows_iff.mp hknows with ⟨hcount, -⟩ | ⟨hnone, -⟩
  · exact hcount
  · exact absurd hnone hclosed

/-- An expression that has a meaning keeps it when it is expanded. -/
theorem Expands.resolveWith_ok (hx : Expands x table table') {onVar : String → Except TypeError Ty}
    {e : TypeExpr} {t : Ty} (h : table.resolveWith onVar e = .ok t) :
    table'.resolveWith onVar (e.expand x) = .ok t := by
  have hvar : ∀ v, SameOutcome SameFault id (onVar v) (onVar v) := fun _ => .refl fun e _ => .refl e
  have hscoped := (exists_resolveWith_iff table onVar e).mp ⟨t, h⟩
  have hout := resolveWith_expand sequential_sameOutcome hx hvar e (appliesNone_of_scoped hscoped)
  rw [h] at hout
  generalize table'.resolveWith onVar (e.expand x) = res at hout
  cases hout
  rfl

theorem Expands.addSynonym (hx : Expands x table table') {d : Decl} (hprim : Prim.named? d.name = none)
    (h : table.addSynonym d = .ok table₁) : Expands (x.addSynonym d) table₁ table' := by
  cases d with
  | sum name params constructors =>
      cases h
      exact hx
  | synonym name target =>
      rw [TypeTable.addSynonym] at h
      simp only [bind_eq_ok_iff, pure_eq_ok_iff] at h
      obtain ⟨t, ht, rfl⟩ := h
      refine ⟨hx.sums_eq, hx.no_synonyms, fun name' => ?_⟩
      simp only [Expansion.addSynonym, Std.ExtTreeMap.getElem?_insert, Std.LawfulEqCmp.compare_eq_iff_eq]
      by_cases heq : name = name'
      · -- the target is expanded with the synonyms before it, and may mention no others
        subst heq
        exact Or.inr ⟨t, _, if_pos rfl, if_pos rfl, hprim, hx.resolveWith_ok ht⟩
      · simpa only [heq, if_false] using hx.synonyms name'

/-- After the second pass the expansion stands for the synonyms of the table. -/
theorem Expands.foldlM_addSynonym (hx : Expands x table table') {decls : List Decl}
    (hprim : ∀ d ∈ decls, Prim.named? d.name = none)
    (h : decls.foldlM TypeTable.addSynonym table = .ok table₁) :
    Expands (decls.foldl Expansion.addSynonym x) table₁ table' := by
  induction decls generalizing x table with
  | nil =>
      rw [List.foldlM_nil, pure_eq_ok_iff] at h
      exact h ▸ hx
  | cons d decls ih =>
      rw [List.foldlM_cons, bind_eq_ok_iff] at h
      obtain ⟨table₂, hd, h⟩ := h
      obtain ⟨hprimd, hprim⟩ := List.forall_mem_cons.mp hprim
      exact ih (hx.addSynonym hprimd hd) hprim h

end Synonyms

end TypeTable

/-! ## The first pass -/

variable {x : Expansion} {decls : List Decl}

namespace Introduced

/-- The constructors are the same, and there are no more types. -/
def Covers (seen seen' : Introduced) : Prop :=
  seen'.types ⊆ seen.types ∧ seen'.constructors = seen.constructors

theorem foldlM_addConstructor_expand (typeName : String) (cs : List ConstructorDecl)
    (known : List (String × String)) :
    (cs.map (.expand x)).foldlM (addConstructor typeName) known =
      cs.foldlM (addConstructor typeName) known := by
  rw [List.foldlM_map]
  rfl

theorem exists_ofDecls_expand {seen : Introduced} (h : ofDecls decls = .ok seen) :
    ∃ seen', ofDecls (decls.filterMap (Decl.expand? x)) = .ok seen' := by
  have hfold : ∃ seen', (decls.filterMap (Decl.expand? x)).foldlM addDecl {} = .ok seen' ∧
      Covers seen seen' := by
    refine exists_foldlM_filterMap Covers ?_ ?_ ⟨List.Subset.refl [], rfl⟩ h
    · rintro d - d' hd seen seen₁ seen' ⟨htypes, hcs⟩ h
      cases d with
      | synonym name target => cases hd
      | sum name params constructors =>
          cases hd
          obtain ⟨⟨hprim, hnew⟩, hparams, known, hknown, rfl⟩ := addDecl_ok_iff.mp h
          -- with fewer types before it, a name that was new is still new
          refine ⟨⟨name :: seen'.types, known⟩,
            addDecl_ok_iff.mpr ⟨⟨hprim, ?_⟩, hparams, known, ?_, rfl⟩,
            List.cons_subset_cons name htypes, rfl⟩
          · exact fun hmem => hnew (htypes hmem)
          · rw [hcs]
            exact (foldlM_addConstructor_expand name constructors _).trans hknown
    · rintro d - hd seen seen₁ seen' ⟨htypes, hcs⟩ h
      cases d with
      | sum name params constructors => cases hd
      | synonym name target =>
          obtain ⟨-, -, known, hknown, rfl⟩ := addDecl_ok_iff.mp h
          cases hknown
          exact ⟨List.subset_cons_of_subset name htypes, hcs⟩
  obtain ⟨seen', hseen', -⟩ := hfold
  exact ⟨seen', hseen'⟩

end Introduced

/-! ## The third pass -/

namespace Registry

variable {r r₁ r' : Registry}

/-- The other registry has the same constructors, and a table without synonyms. -/
structure Mirrors (x : Expansion) (r r' : Registry) : Prop where
  expands : TypeTable.Expands x r.toTypeTable r'.toTypeTable
  constructors_eq : r'.constructors = r.constructors

theorem Mirrors.addConstructor (hr : Mirrors x r r') {typeName : String} {params siblings : List String}
    {c : ConstructorDecl} (h : r.addConstructor typeName params siblings c = .ok r₁) :
    ∃ r₁', r'.addConstructor typeName params siblings (c.expand x) = .ok r₁' ∧ Mirrors x r₁ r₁' := by
  rw [Registry.addConstructor] at h
  simp only [bind_eq_ok_iff, pure_eq_ok_iff] at h
  obtain ⟨fields, hfields, rfl⟩ := h
  have hfields' : (c.expand x).fields.mapM
      (r'.toTypeTable.resolveWith (TypeTable.paramVariable typeName params)) = .ok fields := by
    rw [mapM_eq_ok_iff] at hfields ⊢
    rw [ConstructorDecl.expand, List.forall₂_map_left_iff]
    exact hfields.imp fun _ _ h => hr.expands.resolveWith_ok h
  refine ⟨_, bind_eq_ok_iff.mpr ⟨fields, hfields', rfl⟩, hr.expands, ?_⟩
  rw [hr.constructors_eq]
  rfl

theorem Mirrors.addConstructors (hr : Mirrors x r r') {d d' : Decl} (hd : d.expand? x = some d')
    (h : r.addConstructors d = .ok r₁) :
    ∃ r₁', r'.addConstructors d' = .ok r₁' ∧ Mirrors x r₁ r₁' := by
  cases d with
  | synonym name target => cases hd
  | sum name params constructors =>
      cases hd
      have hmap : constructors.map (ConstructorDecl.expand x) =
          constructors.filterMap fun c => some (c.expand x) := by simp
      rw [Registry.addConstructors, map_name_expand, hmap]
      refine exists_foldlM_filterMap (Mirrors x) ?_ ?_ hr h
      · rintro c - c' hc r r₁ r' hr h
        cases hc
        exact hr.addConstructor h
      · rintro c - hc
        cases hc

/-- Declarations without their synonyms are accepted, and introduce the same constructors. -/
theorem build_eraseSynonyms (h : build decls = .ok r) :
    ∃ r', build (Decl.eraseSynonyms decls) = .ok r' ∧ Mirrors (.ofDecls decls) r r' := by
  rw [build] at h
  simp only [bind_eq_ok_iff] at h
  obtain ⟨seen, hseen, table, htable, h⟩ := h
  obtain ⟨-, hprim⟩ := Introduced.ofDecls_names hseen
  have hexpands : TypeTable.Expands (.ofDecls decls) table (TypeTable.ofSums decls) := by
    refine TypeTable.Expands.foldlM_addSynonym ⟨rfl, rfl, fun name => Or.inl ?_⟩ hprim htable
    simp [TypeTable.ofSums]
  obtain ⟨seen', hseen'⟩ := Introduced.exists_ofDecls_expand (x := .ofDecls decls) hseen
  have hstart : Mirrors (.ofDecls decls) { table with } { TypeTable.ofSums decls with } := ⟨hexpands, rfl⟩
  have hfold : ∃ r', (Decl.eraseSynonyms decls).foldlM Registry.addConstructors
      { TypeTable.ofSums decls with } = .ok r' ∧ Mirrors (.ofDecls decls) r r' := by
    refine exists_foldlM_filterMap (Mirrors (.ofDecls decls)) ?_ ?_ hstart h
    · exact fun d _ d' hd r r₁ r' hr h => hr.addConstructors hd h
    · rintro d - hd r r₁ r' hr h
      cases d with
      | sum name params constructors => cases hd
      | synonym name target =>
          cases h
          exact hr
  obtain ⟨r', hr', hmirrors⟩ := hfold
  refine ⟨r', ?_, hmirrors⟩
  simp only [build, bind_eq_ok_iff]
  refine ⟨seen', hseen', TypeTable.ofSums decls, ?_, hr'⟩
  rw [Decl.eraseSynonyms, TypeTable.ofSums_expand]
  exact TypeTable.foldlM_addSynonym_expand _ decls _

end Registry

end Polytype
