/-
# Polytype.Proofs.Inference.Declared — inference speaks about declared types only.

The types that inference gives, and those that its errors complain about, are put together from the types of
the declarations, from ascriptions and from variables.  Nothing on the way looks at the names of sums: they
come from the registry and are handed on, by unification, substitution and instantiation.  So it is enough
that every step hands on declared types (`Ty.Declared`) when it is given such types, whether it succeeds or
fails (`Ensures`); an expression is a sequence of such steps, form by form (`TypesDeclared`, `expr_declared`).
-/
import Polytype.Proofs.Inference.Congruence
import Polytype.Proofs.Registry.Contents

namespace Polytype

/-! ## Results and errors -/

section Outcomes

variable {ε σ α β : Type}

/-- A result has the first property, and an error the second. -/
inductive Yields (P : α → Prop) (E : ε → Prop) : Except ε α → Prop where
  | ok {a : α} (h : P a) : Yields P E (.ok a)
  | error {e : ε} (h : E e) : Yields P E (.error e)

/-- From every state the computation ends with a result or an error that has its property. -/
def Ensures (P : α → Prop) (E : TypeError → Prop) (x : ExceptT TypeError (StateM σ) α) : Prop :=
  ∀ st, Yields P E (x.run.run st).1

theorem Yields.bind {P : α → Prop} {Q : β → Prop} {E : ε → Prop} {x : Except ε α} {f : α → Except ε β}
    (hx : Yields P E x) (hf : ∀ a, P a → Yields Q E (f a)) : Yields Q E (x >>= f) := by
  cases hx with
  | ok h => exact hf _ h
  | error h => exact .error h

namespace Ensures

variable {P : α → Prop} {Q : β → Prop} {E : TypeError → Prop}

theorem pure {a : α} (h : P a) : Ensures P E (Pure.pure a : ExceptT TypeError (StateM σ) α) :=
  fun _ => .ok h

theorem lift {x : Except TypeError α} (h : Yields P E x) :
    Ensures P E (liftM x : ExceptT TypeError (StateM σ) α) :=
  fun _ => h

theorem bind {x : ExceptT TypeError (StateM σ) α} {f : α → ExceptT TypeError (StateM σ) β}
    (hx : Ensures P E x) (hf : ∀ a, P a → Ensures Q E (f a)) : Ensures Q E (x >>= f) := by
  intro st
  have h := hx st
  simp only [ExceptT.run_bind, StateT.run_bind]
  rcases hrun : x.run.run st with ⟨res, st'⟩
  rw [hrun] at h
  cases h with
  | ok ha => exact hf _ ha st'
  | error he => exact .error he

/-- The results may be taken to be those that come about from some state. -/
theorem reached {x : ExceptT TypeError (StateM σ) α} (hx : Ensures P E x) :
    Ensures (fun a => P a ∧ ∃ st st', x.run.run st = (.ok a, st')) E x := by
  intro st
  have h := hx st
  rcases hrun : x.run.run st with ⟨res, st'⟩
  rw [hrun] at h
  cases h with
  | ok ha => exact .ok ⟨ha, st, st', hrun⟩
  | error he => exact .error he

theorem map {x : ExceptT TypeError (StateM σ) α} {f : α → β} (hx : Ensures P E x)
    (hf : ∀ a, P a → Q (f a)) : Ensures Q E (f <$> x) := by
  rw [map_eq_pure_bind]
  exact hx.bind fun a ha => .pure (hf a ha)

end Ensures

end Outcomes

/-! ## Declared types -/

variable {sums : Std.ExtTreeMap String SumInfo}

namespace Ty

theorem Declared.child {t c : Ty} (h : t.Declared sums) (hc : c ∈ t.children) : c.Declared sums :=
  fun name ts hpart => h name ts (.child hc hpart)

theorem declared_fn {a b : Ty} : (Ty.fn a b).Declared sums ↔ a.Declared sums ∧ b.Declared sums := by
  refine ⟨fun h => ⟨h.child (by simp [children]), h.child (by simp [children])⟩, fun h => ?_⟩
  exact declared_of_children (by simpa [children] using h) (by simp)

theorem declared_tuple {ts : List Ty} : (Ty.tuple ts).Declared sums ↔ ∀ t ∈ ts, t.Declared sums :=
  ⟨fun h _ ht => h.child ht, fun h => declared_of_children h (by simp)⟩

theorem declared_record {fs : List (String × Ty)} :
    (Ty.record fs).Declared sums ↔ ∀ f ∈ fs, f.2.Declared sums := by
  refine ⟨fun h f hf => h.child (List.mem_map_of_mem hf), fun h => ?_⟩
  exact declared_of_children (List.forall_mem_map.mpr h) (by simp)

theorem declared_sum {name : String} {ts : List Ty} :
    (Ty.sum name ts).Declared sums ↔
      (∃ info, sums[name]? = some info ∧ ts.length = info.params.length) ∧ ∀ t ∈ ts, t.Declared sums := by
  refine ⟨fun h => ⟨h name ts .refl, fun _ ht => h.child ht⟩, fun h => declared_of_children h.2 ?_⟩
  rintro name' ts' heq
  cases heq
  exact h.1

end Ty

/-- Whatever the substitution puts for a variable is declared. -/
def Subst.Declared (sums : Std.ExtTreeMap String SumInfo) (s : Subst) : Prop :=
  ∀ v, (s.image v).Declared sums

/-- The types that the environment gives to its variables are declared. -/
def Env.Declared (sums : Std.ExtTreeMap String SumInfo) (Γ : Env) : Prop :=
  ∀ (x : String) (σ : Scheme), Γ[x]? = some σ → σ.body.Declared sums

namespace Subst

variable {s u : Subst}

theorem declared_empty : Declared sums ∅ := by
  intro v
  rw [image_empty]
  exact Ty.declared_var sums v

theorem Declared.apply (hs : s.Declared sums) {t : Ty} (ht : t.Declared sums) :
    (s.apply t).Declared sums := by
  induction t with
  | prim p => exact ht
  | var v => exact hs v
  | fn a b iha ihb =>
      rw [Ty.declared_fn] at ht
      exact Ty.declared_fn.mpr ⟨iha ht.1, ihb ht.2⟩
  | tuple ts ih =>
      rw [Ty.declared_tuple] at ht
      rw [apply_tuple, Ty.declared_tuple, List.forall_mem_map]
      exact fun t hmem => ih t hmem (ht t hmem)
  | record fs ih =>
      rw [Ty.declared_record] at ht
      rw [apply_record, Ty.declared_record, List.forall_mem_map]
      exact fun f hmem => ih f hmem (ht f hmem)
  | sum name ts ih =>
      rw [Ty.declared_sum] at ht
      rw [apply_sum, Ty.declared_sum, List.length_map, List.forall_mem_map]
      exact ⟨ht.1, fun t hmem => ih t hmem (ht.2 t hmem)⟩
  | absent => exact ht

theorem Declared.comp (hu : u.Declared sums) (hs : s.Declared sums) : (u.comp s).Declared sums := by
  intro v
  rw [image_comp]
  exact hu.apply (hs v)

theorem Declared.without (hs : s.Declared sums) (vs : VarSet) : (s.without vs).Declared sums := by
  intro v
  rw [image_without]
  split
  · exact Ty.declared_var sums v
  · exact hs v

theorem declared_single {v : TyVar} {t : Ty} (ht : t.Declared sums) : (single v t).Declared sums := by
  intro w
  rw [image_single]
  split
  · exact ht
  · exact Ty.declared_var sums w

theorem declared_renumber {vs : List TyVar} (hvs : vs.Nodup) (n : TyVar) :
    (renumber vs n).Declared sums := by
  intro v
  rw [image_renumber hvs]
  split <;> exact Ty.declared_var sums _

end Subst

namespace Env

variable {Γ : Env}

theorem declared_empty : Declared sums ∅ := by
  intro x σ hx
  simp at hx

theorem Declared.insert (hΓ : Γ.Declared sums) {x : String} {σ : Scheme} (hσ : σ.body.Declared sums) :
    Declared sums (Γ.insert x σ) := by
  intro y τ hy
  rcases getElem?_insert_iff.mp hy with ⟨-, rfl⟩ | ⟨-, hy⟩
  · exact hσ
  · exact hΓ y τ hy

theorem Declared.bindAll (hΓ : Γ.Declared sums) {bs : List (String × Ty)}
    (hbs : ∀ b ∈ bs, b.2.Declared sums) : (Γ.bindAll bs).Declared sums := by
  induction bs generalizing Γ with
  | nil => exact hΓ
  | cons b bs ih =>
      obtain ⟨hb, hbs⟩ := List.forall_mem_cons.mp hbs
      exact ih (hΓ.insert hb) hbs

theorem Declared.apply (hΓ : Γ.Declared sums) {s : Subst} (hs : s.Declared sums) :
    (Γ.apply s).Declared sums := by
  intro x τ hx
  obtain ⟨σ, hσ, rfl⟩ := getElem?_apply_iff.mp hx
  exact (hs.without σ.quantified).apply (hΓ x σ hσ)

end Env

/-! ## Errors -/

/-- The types that a fault is about. -/
def Fault.types : Fault → List Ty
  | .mismatch left right => [left, right]
  | .occursCheck _ t => [t]
  | .recordExpected actual => [actual]
  | .tupleExpected actual => [actual]
  | _ => []

/-- The error is about declared types. -/
def TypeError.Declared (sums : Std.ExtTreeMap String SumInfo) (e : TypeError) : Prop :=
  ∀ t ∈ e.fault.types, t.Declared sums

theorem TypeError.declared_of_nil {e : TypeError} (h : e.fault.types = []) : e.Declared sums := by
  intro t ht
  rw [h] at ht
  exact absurd ht List.not_mem_nil

/-- What is wrong with a declaration or an ascription is said without types. -/
theorem Fault.OfDeclarations.types_eq {f : Fault} (h : f.OfDeclarations) : f.types = [] := by
  cases h <;> rfl

/-! ## Unification -/

theorem bindVar_declared (v : TyVar) {t : Ty} (ht : t.Declared sums) :
    Yields (Subst.Declared sums) (TypeError.Declared sums) (bindVar v t) := by
  unfold bindVar
  split
  · exact .ok Subst.declared_empty
  · split
    · exact .error (by simpa [TypeError.Declared, Fault.types] using ht)
    · exact .ok (Subst.declared_single ht)

/-- Unification hands on what stands in the equations. -/
theorem unifyAll_declared (eqs : Equations)
    (h : ∀ e ∈ eqs, e.1.Declared sums ∧ e.2.Declared sums) :
    Yields (Subst.Declared sums) (TypeError.Declared sums) (unifyAll eqs) := by
  -- binding a variable changes the equations that are left, but keeps them declared
  have hbind : ∀ {v : TyVar} {t : Ty} {s : Subst} {eqs : Equations}, t.Declared sums →
      bindVar v t = .ok s → (∀ e ∈ eqs, e.1.Declared sums ∧ e.2.Declared sums) →
      s.Declared sums ∧ ∀ e ∈ Equations.apply s eqs, e.1.Declared sums ∧ e.2.Declared sums := by
    intro v t s eqs ht hs heqs
    have hyields := bindVar_declared v ht
    rw [hs] at hyields
    cases hyields with
    | ok hs =>
        refine ⟨hs, List.forall_mem_map.mpr fun e he => ?_⟩
        exact ⟨hs.apply (heqs e he).1, hs.apply (heqs e he).2⟩
  have herror : ∀ {v : TyVar} {t : Ty} {e : TypeError}, t.Declared sums → bindVar v t = .error e →
      Yields (α := Subst) (Subst.Declared sums) (TypeError.Declared sums) (.error e) := by
    intro v t e ht he
    rw [← he]
    exact bindVar_declared v ht
  fun_induction unifyAll eqs with
  | case1 => exact .ok Subst.declared_empty
  | case2 v b eqs e he => exact herror (h _ List.mem_cons_self).2 he
  | case3 v b eqs s hs ih =>
      obtain ⟨hab, heqs⟩ := List.forall_mem_cons.mp h
      obtain ⟨hs, heqs⟩ := hbind hab.2 hs heqs
      exact (ih heqs).bind fun u hu => .ok (hu.comp hs)
  | case4 a v eqs ha e he => exact herror (h _ List.mem_cons_self).1 he
  | case5 a v eqs ha s hs ih =>
      obtain ⟨hab, heqs⟩ := List.forall_mem_cons.mp h
      obtain ⟨hs, heqs⟩ := hbind hab.1 hs heqs
      exact (ih heqs).bind fun u hu => .ok (hu.comp hs)
  | case6 a b eqs ha hb hhead ih =>
      obtain ⟨hab, heqs⟩ := List.forall_mem_cons.mp h
      refine ih (List.forall_mem_append.mpr ⟨fun e he => ?_, heqs⟩)
      exact ⟨hab.1.child (List.of_mem_zip he).1, hab.2.child (List.of_mem_zip he).2⟩
  | case7 a b eqs ha hb hhead =>
      have hab := h _ List.mem_cons_self
      exact .error (by simpa [TypeError.Declared, Fault.types] using hab)

theorem unify_declared {a b : Ty} (ha : a.Declared sums) (hb : b.Declared sums) :
    Yields (Subst.Declared sums) (TypeError.Declared sums) (unify a b) :=
  unifyAll_declared _ (by simpa using ⟨ha, hb⟩)

/-! ## Declarations and ascriptions -/

/-- The types that the registry speaks about are declared there. -/
structure Registry.SelfContained (r : Registry) : Prop where
  targets : r.toTypeTable.TargetsDeclared
  field : ∀ (name : String) (c : ConstructorInfo), r.constructors[name]? = some c →
    ∀ t ∈ c.fields, t.Declared r.sums
  owner : ∀ (name : String) (c : ConstructorInfo), r.constructors[name]? = some c →
    ∃ info, r.sums[c.typeName]? = some info ∧ c.paramCount = info.params.length

theorem Registry.build_selfContained {decls : List Decl} {r : Registry} (h : build decls = .ok r) :
    r.SelfContained := by
  refine ⟨(build_holds h).targetsDeclared, fun name c hc => (coherent_of_build h hc).field_declared,
    fun name c hc => ?_⟩
  obtain ⟨info, hinfo, -, -, hparams⟩ := (coherent_of_build h hc).owner
  exact ⟨info, hinfo, congrArg List.length hparams⟩

namespace TypeTable

variable {table : TypeTable}

theorem denote_declared (htable : table.TargetsDeclared) (name : String) (count : Nat) :
    Yields (fun den => (∀ t, den = .closed t → t.Declared table.sums) ∧
        (den = .sum → ∃ info, table.sums[name]? = some info ∧ count = info.params.length))
      (TypeError.Declared table.sums) (table.denote name count) := by
  cases hden : table.denote name count with
  | error e =>
      have hfault := FailsOnDeclarations.denote table name count e hden
      exact .error (TypeError.declared_of_nil hfault.types_eq)
  | ok den =>
      refine .ok ⟨?_, ?_⟩
      · rintro t rfl
        have hclosed := (denote_closed hden).2
        unfold closed? at hclosed
        split at hclosed
        · cases hclosed
          exact Ty.declared_prim _ _
        · exact htable name t hclosed
      · rintro rfl
        exact denote_sum hden

theorem ofName_declared (name : String) :
    Ensures (Ty.Declared table.sums) (TypeError.Declared table.sums) (NamedVars.ofName name) := by
  intro sc
  show Yields _ _ (Resolve.start (NamedVars.ofName name) sc).1
  rw [NamedVars.start_ofName]
  split <;> exact .ok (Ty.declared_var _ _)

theorem resolveList_ensures {es : List TypeExpr}
    (ih : ∀ e ∈ es, Ensures (Ty.Declared table.sums) (TypeError.Declared table.sums)
      (table.resolveWith NamedVars.ofName e)) :
    Ensures (fun ts => ts.length = es.length ∧ ∀ t ∈ ts, t.Declared table.sums)
      (TypeError.Declared table.sums) (table.resolveList NamedVars.ofName es) := by
  induction es with
  | nil => exact .pure ⟨rfl, by simp⟩
  | cons e es ihes =>
      rw [resolveList]
      refine (ih e List.mem_cons_self).bind fun t ht => ?_
      refine (ihes fun e' he' => ih e' (List.mem_cons_of_mem e he')).bind fun ts hts => .pure ?_
      exact ⟨congrArg (· + 1) hts.1, List.forall_mem_cons.mpr ⟨ht, hts.2⟩⟩

/-- An ascription means a declared type. -/
theorem resolveWith_ensures (htable : table.TargetsDeclared) (e : TypeExpr) :
    Ensures (Ty.Declared table.sums) (TypeError.Declared table.sums)
      (table.resolveWith NamedVars.ofName e) := by
  induction e with
  | con name args ih =>
      rw [resolveWith]
      refine Ensures.bind (.lift (denote_declared htable name args.length)) ?_
      rintro den ⟨hclosed, hsum⟩
      cases den with
      | closed t => exact .pure (hclosed t rfl)
      | sum =>
          refine (resolveList_ensures ih).bind fun ts hts => .pure (Ty.declared_sum.mpr ⟨?_, hts.2⟩)
          rw [hts.1]
          exact hsum rfl
  | var name => exact ofName_declared name
  | arrow dom cod ihd ihc =>
      rw [resolveWith]
      exact ihd.bind fun a ha => ihc.bind fun b hb => .pure (Ty.declared_fn.mpr ⟨ha, hb⟩)
  | tuple elems ih =>
      rw [resolveWith]
      exact (resolveList_ensures ih).bind fun ts hts => .pure (Ty.declared_tuple.mpr hts.2)
  | record fields ih =>
      rw [resolveWith, resolveFields_eq]
      refine Ensures.bind ((resolveList_ensures (List.forall_mem_map.mpr ih)).map fun ts hts => ?_)
        fun fs hfs => .pure (Ty.declared_record.mpr hfs)
      exact fun f hf => hts.2 f.2 (List.of_mem_zip hf).2

end TypeTable

/-! ## The operations of inference -/

/-- The typing gives a declared type, and declared types for variables. -/
structure Typing.Declared (sums : Std.ExtTreeMap String SumInfo) (ty : Typing) : Prop where
  subst : ty.subst.Declared sums
  type : ty.type.Declared sums

/-- The variables of the pattern have declared types. -/
structure PatternTyping.Declared (sums : Std.ExtTreeMap String SumInfo) (pt : PatternTyping) : Prop where
  subst : pt.subst.Declared sums
  binding : ∀ b ∈ pt.bindings, b.2.Declared sums

/-- The constructor takes declared types and gives a declared type. -/
structure ConstructorInstance.Declared (sums : Std.ExtTreeMap String SumInfo) (c : ConstructorInstance) :
    Prop where
  field : ∀ t ∈ c.fields, t.Declared sums
  result : c.result.Declared sums

theorem declared_freshTys (n : TyVar) (k : Nat) : ∀ t ∈ freshTys n k, t.Declared sums := by
  intro t ht
  obtain ⟨i, -, rfl⟩ := List.mem_map.mp ht
  exact Ty.declared_var sums _

theorem Scheme.declared_instantiate {σ : Scheme} (hσ : σ.body.Declared sums) (n : TyVar) :
    (σ.instantiate n).Declared sums :=
  (Subst.declared_renumber (nodup_toList σ.quantified) n).apply hσ

namespace Infer

variable {r : Registry} {c : InferContext}

/-- The computation hands on declared types, and its errors are about declared types. -/
abbrev Keeps (r : Registry) {α : Type} (P : α → Prop) (x : Infer α) : Prop :=
  Ensures P (TypeError.Declared r.sums) x

theorem fresh_declared : Keeps r (Ty.Declared r.sums) fresh :=
  fun st => .ok (Ty.declared_var _ st.next)

theorem freshList_declared (k : Nat) : Keeps r (fun ts => ∀ t ∈ ts, t.Declared r.sums) (freshList k) :=
  fun st => .ok (declared_freshTys st.next k)

theorem lookup_declared {Γ : Env} (hΓ : Γ.Declared r.sums) (name : String) :
    Yields (fun σ => σ.body.Declared r.sums) (TypeError.Declared r.sums) (Γ.lookup name) := by
  unfold Env.lookup
  split
  · next σ hσ => exact .ok (hΓ name σ hσ)
  · exact .error (TypeError.declared_of_nil rfl)

theorem ascribed_declared (hr : r.SelfContained) (t : TypeExpr) :
    Keeps r (Ty.Declared r.sums) (ascribed r t) :=
  fun st => TypeTable.resolveWith_ensures hr.targets t { next := st.next }

theorem ascribedOrFresh_declared (hr : r.SelfContained) (ascription : Option TypeExpr) :
    Keeps r (Ty.Declared r.sums) (ascribedOrFresh r ascription) := by
  cases ascription with
  | none => exact fresh_declared
  | some t => exact ascribed_declared hr t

theorem ascribe_declared (hr : r.SelfContained) (ascription : Option TypeExpr) {ty : Typing}
    (hty : ty.Declared r.sums) : Keeps r (Typing.Declared r.sums) (ascribe r ascription ty) := by
  cases ascription with
  | none => exact .pure hty
  | some e =>
      refine (ascribed_declared hr e).bind fun t ht => ?_
      refine Ensures.bind (.lift (unify_declared hty.type ht)) fun s hs => .pure ?_
      exact ⟨hs.comp hty.subst, hs.apply hty.type⟩

theorem saturated_declared (hr : r.SelfContained) (name : String) (count : Nat) :
    Keeps r (ConstructorInstance.Declared r.sums) (saturated r name count) := by
  have hrequire : Yields (fun info => r.constructors[name]? = some info) (TypeError.Declared r.sums)
      (r.require name) := by
    unfold Registry.require
    split
    · next info hinfo => exact .ok hinfo
    · exact .error (TypeError.declared_of_nil rfl)
  refine Ensures.bind (.lift hrequire) fun info hinfo => ?_
  have hinst : Keeps r (ConstructorInstance.Declared r.sums) (instantiateConstructor info) := by
    intro st
    have hparams : ((List.range info.paramCount).map Int.ofNat).Nodup :=
      List.nodup_range.map fun _ _ h => Int.ofNat.inj h
    refine .ok ⟨List.forall_mem_map.mpr fun t ht => ?_, Ty.declared_sum.mpr ⟨?_, ?_⟩⟩
    · exact (Subst.declared_renumber hparams st.next).apply (hr.field name info hinfo t ht)
    · rw [length_freshTys]
      exact hr.owner name info hinfo
    · exact declared_freshTys _ _
  dsimp only
  split
  · exact Ensures.bind (P := fun _ => True) (.lift (.error (TypeError.declared_of_nil rfl)))
      fun _ _ => hinst
  · exact hinst

theorem fieldTypes_declared {known : List (String × Ty)} (hknown : ∀ f ∈ known, f.2.Declared r.sums)
    (labels : List String) :
    Yields (fun ts => ∀ t ∈ ts, t.Declared r.sums) (TypeError.Declared r.sums)
      (fieldTypes known labels) := by
  induction labels with
  | nil => exact .ok (by simp)
  | cons l ls ih =>
      rw [fieldTypes]
      split
      · exact .error (TypeError.declared_of_nil rfl)
      · next t ht =>
          refine ih.bind fun ts hts => .ok (List.forall_mem_cons.mpr ⟨?_, hts⟩)
          exact hknown (l, t) (mem_of_lookup ht)

theorem recordFields_declared {t : Ty} (ht : t.Declared r.sums) (labels : List String) :
    Keeps r (fun res => res.1.Declared r.sums ∧ ∀ u ∈ res.2, u.Declared r.sums)
      (recordFields t labels) := by
  unfold recordFields
  split
  · next known =>
      refine Ensures.bind (.lift (fieldTypes_declared (Ty.declared_record.mp ht) labels)) fun ts hts => ?_
      exact .pure ⟨Subst.declared_empty, hts⟩
  · refine (freshList_declared labels.length).bind fun ts hts => ?_
    have hrecord : (Ty.record (labels.zip ts)).Declared r.sums :=
      Ty.declared_record.mpr fun f hf => hts f.2 (List.of_mem_zip hf).2
    exact Ensures.bind (.lift (unify_declared ht hrecord)) fun s hs => .pure ⟨hs, hts⟩

theorem operands_declared (kind : OperatorKind) {a b : Ty} (ha : a.Declared r.sums)
    (hb : b.Declared r.sums) :
    Yields (Subst.Declared r.sums) (TypeError.Declared r.sums) (operands kind a b) := by
  have hint : Ty.int.Declared r.sums := Ty.declared_prim _ _
  cases kind with
  | arithmetic =>
      refine (unify_declared ha hint).bind fun s₁ hs₁ => ?_
      exact (unify_declared (hs₁.apply hb) hint).bind fun s₂ hs₂ => .ok (hs₂.comp hs₁)
  | equality => exact unify_declared ha hb
  | ordering =>
      refine (unify_declared ha hb).bind fun s hs => ?_
      have hleft := hs.apply ha
      split
      · exact (unify_declared (Ty.declared_var _ _) hint).bind fun u hu => .ok (hu.comp hs)
      · exact .ok hs
      · exact .ok hs
      · exact .error (by simpa [TypeError.Declared, Fault.types] using ⟨hleft, hint⟩)

theorem component_declared {t : Ty} (ht : t.Declared r.sums) (index : Nat) :
    Yields (Ty.Declared r.sums) (TypeError.Declared r.sums) (component t index) := by
  unfold component
  split
  · split
    · next elem helem => exact .ok (Ty.declared_tuple.mp ht elem (List.mem_of_getElem? helem))
    · exact .error (TypeError.declared_of_nil rfl)
  · exact .error (by simpa [TypeError.Declared, Fault.types] using ht)

theorem field_declared {t : Ty} (ht : t.Declared r.sums) (label : String) :
    Yields (Ty.Declared r.sums) (TypeError.Declared r.sums) (field t label) := by
  unfold field
  split
  · split
    · next u hu => exact .ok (Ty.declared_record.mp ht (label, u) (mem_of_lookup hu))
    · exact .error (TypeError.declared_of_nil rfl)
  · exact .error (by simpa [TypeError.Declared, Fault.types] using ht)

theorem coverage_declared {ps : List Pattern} (h : Coverage.AllKnown c.registry ps) :
    Keeps c.registry (fun _ => True) (coverage c ps) := by
  intro st
  obtain ⟨missing, hmissing⟩ := Coverage.missingCases_total h
  show Yields _ _ ((coverage c ps).start st).1
  rw [start_coverage, hmissing]
  split <;> exact .ok trivial

/-! ## Patterns -/

theorem patternList_declared {ps : List Pattern}
    (ih : ∀ p ∈ ps, ∀ t : Ty, t.Declared r.sums → Keeps r (PatternTyping.Declared r.sums) (pattern r p t)) :
    ∀ (ts : List Ty) (s : Subst), (∀ t ∈ ts, t.Declared r.sums) → s.Declared r.sums →
      Keeps r (PatternTyping.Declared r.sums) (patternList r ps ts s) := by
  induction ps with
  | nil =>
      intro ts s _ hs
      cases ts <;> exact .pure ⟨hs, by simp⟩
  | cons p ps ihps =>
      intro ts s hts hs
      cases ts with
      | nil => exact .pure ⟨hs, by simp⟩
      | cons t ts =>
          obtain ⟨ht, hts⟩ := List.forall_mem_cons.mp hts
          rw [patternList]
          refine (ih p List.mem_cons_self _ (hs.apply ht)).bind fun here hhere => ?_
          refine Ensures.bind (ihps (fun q hq => ih q (List.mem_cons_of_mem p hq)) ts _ hts
            (hhere.subst.comp hs)) fun rest hrest => .pure ?_
          exact ⟨hrest.subst, List.forall_mem_append.mpr ⟨hhere.binding, hrest.binding⟩⟩

theorem pattern_declared (hr : r.SelfContained) (p : Pattern) :
    ∀ t : Ty, t.Declared r.sums → Keeps r (PatternTyping.Declared r.sums) (pattern r p t) := by
  induction p with
  | wildcard => exact fun t _ => .pure ⟨Subst.declared_empty, by simp⟩
  | var name => exact fun t ht => .pure ⟨Subst.declared_empty, by simpa using ht⟩
  | int n =>
      exact fun t ht => Ensures.bind (.lift (unify_declared ht (Ty.declared_prim _ _))) fun s hs =>
        .pure ⟨hs, by simp⟩
  | bool b =>
      exact fun t ht => Ensures.bind (.lift (unify_declared ht (Ty.declared_prim _ _))) fun s hs =>
        .pure ⟨hs, by simp⟩
  | con name args ih =>
      intro t ht
      rw [pattern]
      refine (saturated_declared hr name args.length).bind fun con hcon => ?_
      exact Ensures.bind (.lift (unify_declared ht hcon.result)) fun s hs =>
        patternList_declared ih _ _ hcon.field hs
  | tuple elems ih =>
      intro t ht
      rw [pattern]
      refine (freshList_declared elems.length).bind fun ts hts => ?_
      exact Ensures.bind (.lift (unify_declared ht (Ty.declared_tuple.mpr hts))) fun s hs =>
        patternList_declared ih _ _ hts hs
  | record fields ih =>
      intro t ht
      rw [pattern]
      refine (recordFields_declared ht _).bind fun res hres => ?_
      simp only [patternFields_eq]
      exact patternList_declared (List.forall_mem_map.mpr ih) _ _ hres.2 hres.1

/-! ## Expressions -/

/-- Typing the expression in a declared environment hands on declared types. -/
def TypesDeclared (c : InferContext) (e : Expr) : Prop :=
  ∀ Γ : Env, Γ.Declared c.registry.sums →
    Keeps c.registry (Typing.Declared c.registry.sums) (expr c Γ e)

theorem exprArgs_declared {es : List Expr} (ih : ∀ e ∈ es, TypesDeclared c e) {Γ : Env}
    (hΓ : Γ.Declared c.registry.sums) :
    ∀ (ts : List Ty) (s : Subst), (∀ t ∈ ts, t.Declared c.registry.sums) → s.Declared c.registry.sums →
      Keeps c.registry (Subst.Declared c.registry.sums) (exprArgs c Γ es ts s) := by
  induction es with
  | nil =>
      intro ts s _ hs
      cases ts <;> exact .pure hs
  | cons e es ihes =>
      intro ts s hts hs
      cases ts with
      | nil => exact .pure hs
      | cons t ts =>
          obtain ⟨ht, hts⟩ := List.forall_mem_cons.mp hts
          rw [exprArgs]
          refine (ih e List.mem_cons_self _ (hΓ.apply hs)).bind fun arg harg => ?_
          have hs₁ := harg.subst.comp hs
          refine Ensures.bind (.lift (unify_declared (hs₁.apply ht) harg.type)) fun u hu => ?_
          exact ihes (fun q hq => ih q (List.mem_cons_of_mem e hq)) ts _ hts (hu.comp hs₁)

theorem exprList_declared {es : List Expr} (ih : ∀ e ∈ es, TypesDeclared c e) {Γ : Env}
    (hΓ : Γ.Declared c.registry.sums) : ∀ s : Subst, s.Declared c.registry.sums →
      Keeps c.registry (fun res => res.1.Declared c.registry.sums ∧
        ∀ t ∈ res.2, t.Declared c.registry.sums) (exprList c Γ es s) := by
  induction es with
  | nil => exact fun s hs => .pure ⟨hs, by simp⟩
  | cons e es ihes =>
      intro s hs
      rw [exprList]
      refine (ih e List.mem_cons_self _ (hΓ.apply hs)).bind fun elem helem => ?_
      refine Ensures.bind (ihes (fun q hq => ih q (List.mem_cons_of_mem e hq)) _
        (helem.subst.comp hs)) fun res hres => .pure ?_
      exact ⟨hres.1, List.forall_mem_cons.mpr ⟨helem.type, hres.2⟩⟩

theorem exprArms_declared (hr : c.registry.SelfContained) {arms : List (Pattern × Expr)}
    (ih : ∀ arm ∈ arms, TypesDeclared c arm.2) {Γ : Env} (hΓ : Γ.Declared c.registry.sums) {a b : Ty}
    (ha : a.Declared c.registry.sums) (hb : b.Declared c.registry.sums) :
    ∀ s : Subst, s.Declared c.registry.sums →
      Keeps c.registry (Subst.Declared c.registry.sums) (exprArms c Γ a b arms s) := by
  induction arms with
  | nil => exact fun s hs => .pure hs
  | cons arm arms iharms =>
      intro s hs
      rw [exprArms]
      refine (pattern_declared hr arm.1 _ (hs.apply ha)).bind fun pt hpt => ?_
      have hs₁ := hpt.subst.comp hs
      have hbindings : ∀ b ∈ pt.bindings.map fun b => (b.1, (pt.subst.comp s).apply b.2),
          b.2.Declared c.registry.sums :=
        List.forall_mem_map.mpr fun b hb => hs₁.apply (hpt.binding b hb)
      refine (ih arm List.mem_cons_self _ ((hΓ.apply hs₁).bindAll hbindings)).bind fun body hbody => ?_
      have hs₂ := hbody.subst.comp hs₁
      refine Ensures.bind (.lift (unify_declared (hs₂.apply hb) hbody.type)) fun u hu => ?_
      exact iharms (fun q hq => ih q (List.mem_cons_of_mem arm hq)) _ (hu.comp hs₂)

namespace TypesDeclared

theorem lit (l : Literal) : TypesDeclared c (.lit l) := by
  refine fun Γ _ => .pure ⟨Subst.declared_empty, ?_⟩
  cases l <;> exact Ty.declared_prim _ _

theorem var (name : String) : TypesDeclared c (.var name) := by
  intro Γ hΓ
  rw [expr]
  refine Ensures.bind (.lift (lookup_declared hΓ name)) fun σ hσ => ?_
  refine Ensures.bind (P := Ty.Declared c.registry.sums) (fun st => ?_) fun t ht => ?_
  · exact .ok (Scheme.declared_instantiate hσ st.next)
  · exact .pure ⟨Subst.declared_empty, ht⟩

theorem lam (hr : c.registry.SelfContained) {param : String} {ascription : Option TypeExpr} {body : Expr}
    (ih : TypesDeclared c body) : TypesDeclared c (.lam param ascription body) := by
  intro Γ hΓ
  rw [expr]
  refine (ascribedOrFresh_declared hr ascription).bind fun dom hdom => ?_
  refine (ih _ (hΓ.insert hdom)).bind fun cod hcod => .pure ⟨hcod.subst, ?_⟩
  exact Ty.declared_fn.mpr ⟨hcod.subst.apply hdom, hcod.type⟩

theorem app {fn arg : Expr} (ihf : TypesDeclared c fn) (iha : TypesDeclared c arg) :
    TypesDeclared c (.app fn arg) := by
  intro Γ hΓ
  rw [expr]
  refine (ihf Γ hΓ).bind fun ft hft => (iha _ (hΓ.apply hft.subst)).bind fun xt hxt => ?_
  refine fresh_declared.bind fun result hresult => ?_
  refine Ensures.bind (.lift (unify_declared (hxt.subst.apply hft.type)
    (Ty.declared_fn.mpr ⟨hxt.type, hresult⟩))) fun s hs => .pure ?_
  exact ⟨(hs.comp hxt.subst).comp hft.subst, hs.apply hresult⟩

theorem letIn (hr : c.registry.SelfContained) {name : String} {ascription : Option TypeExpr}
    {value body : Expr} (ihv : TypesDeclared c value) (ihb : TypesDeclared c body) :
    TypesDeclared c (.letIn name ascription value body) := by
  intro Γ hΓ
  rw [expr]
  refine (ihv Γ hΓ).bind fun vt hvt => (ascribe_declared hr ascription hvt).bind fun xt hxt => ?_
  refine Ensures.bind (ihb _ ((hΓ.apply hxt.subst).insert hxt.type)) fun bt hbt => .pure ?_
  exact ⟨hbt.subst.comp hxt.subst, hbt.type⟩

theorem letRec (hr : c.registry.SelfContained) {name : String} {ascription : Option TypeExpr}
    {value body : Expr} (ihv : TypesDeclared c value) (ihb : TypesDeclared c body) :
    TypesDeclared c (.letRec name ascription value body) := by
  intro Γ hΓ
  rw [expr]
  refine (ascribedOrFresh_declared hr ascription).bind fun self hself => ?_
  refine (ihv _ (hΓ.insert hself)).bind fun vt hvt => ?_
  refine Ensures.bind (.lift (unify_declared (hvt.subst.apply hself) hvt.type)) fun s hs => ?_
  have hs₁ := hs.comp hvt.subst
  refine Ensures.bind (ihb _ ((hΓ.apply hs₁).insert (hs.apply hvt.type))) fun bt hbt => .pure ?_
  exact ⟨hbt.subst.comp hs₁, hbt.type⟩

theorem ite {cond thenBranch elseBranch : Expr} (ihc : TypesDeclared c cond)
    (iht : TypesDeclared c thenBranch) (ihe : TypesDeclared c elseBranch) :
    TypesDeclared c (.ite cond thenBranch elseBranch) := by
  intro Γ hΓ
  rw [expr]
  refine (ihc Γ hΓ).bind fun ct hct => ?_
  refine Ensures.bind (.lift (unify_declared hct.type (Ty.declared_prim _ _))) fun s₁ hs₁ => ?_
  have hsub₁ := hs₁.comp hct.subst
  refine (iht _ (hΓ.apply hsub₁)).bind fun tt htt => ?_
  have hsub₂ := htt.subst.comp hsub₁
  refine (ihe _ (hΓ.apply hsub₂)).bind fun et het => ?_
  refine Ensures.bind (.lift (unify_declared (het.subst.apply htt.type) het.type)) fun s₂ hs₂ => ?_
  exact .pure ⟨hs₂.comp (het.subst.comp hsub₂), hs₂.apply het.type⟩

theorem binop {op : String} {left right : Expr} (ihl : TypesDeclared c left)
    (ihr : TypesDeclared c right) : TypesDeclared c (.binop op left right) := by
  intro Γ hΓ
  rw [expr]
  split
  · exact .lift (.error (TypeError.declared_of_nil rfl))
  · next kind _ =>
      refine (ihl Γ hΓ).bind fun lt hlt => (ihr _ (hΓ.apply hlt.subst)).bind fun rt hrt => ?_
      refine Ensures.bind (.lift (operands_declared kind (hrt.subst.apply hlt.type) hrt.type))
        fun s hs => .pure ⟨hs.comp (hrt.subst.comp hlt.subst), ?_⟩
      cases kind <;> exact Ty.declared_prim _ _

theorem construct (hr : c.registry.SelfContained) {name : String} {args : List Expr}
    (ih : ∀ e ∈ args, TypesDeclared c e) : TypesDeclared c (.construct name args) := by
  intro Γ hΓ
  rw [expr]
  refine (saturated_declared hr name args.length).bind fun con hcon => ?_
  refine (exprArgs_declared ih hΓ _ _ hcon.field Subst.declared_empty).bind fun s hs => ?_
  exact .pure ⟨hs, hs.apply hcon.result⟩

theorem tuple {elems : List Expr} (ih : ∀ e ∈ elems, TypesDeclared c e) : TypesDeclared c (.tuple elems) := by
  intro Γ hΓ
  rw [expr]
  refine (exprList_declared ih hΓ _ Subst.declared_empty).bind fun res hres => .pure ⟨hres.1, ?_⟩
  exact Ty.declared_tuple.mpr (List.forall_mem_map.mpr fun t ht => hres.1.apply (hres.2 t ht))

theorem proj {tuple : Expr} {index : Nat} (ih : TypesDeclared c tuple) : TypesDeclared c (.proj tuple index) := by
  intro Γ hΓ
  rw [expr]
  refine (ih Γ hΓ).bind fun ty hty => ?_
  exact Ensures.bind (.lift (component_declared (hty.subst.apply hty.type) index)) fun t ht =>
    .pure ⟨hty.subst, ht⟩

theorem record {fields : List (String × Expr)} (ih : ∀ f ∈ fields, TypesDeclared c f.2) :
    TypesDeclared c (.record fields) := by
  intro Γ hΓ
  rw [expr, exprFields_eq]
  refine Ensures.bind ((exprList_declared (List.forall_mem_map.mpr ih) hΓ _
    Subst.declared_empty).map (Q := fun res => res.1.Declared c.registry.sums ∧
      ∀ f ∈ res.2, f.2.Declared c.registry.sums) fun res hres => ?_) fun res hres => .pure ⟨hres.1, ?_⟩
  · exact ⟨hres.1, fun f hf => hres.2 f.2 (List.of_mem_zip hf).2⟩
  · exact Ty.declared_record.mpr (List.forall_mem_map.mpr fun f hf => hres.1.apply (hres.2 f hf))

theorem access {record : Expr} {label : String} (ih : TypesDeclared c record) :
    TypesDeclared c (.access record label) := by
  intro Γ hΓ
  rw [expr]
  refine (ih Γ hΓ).bind fun ty hty => ?_
  exact Ensures.bind (.lift (field_declared (hty.subst.apply hty.type) label)) fun t ht =>
    .pure ⟨hty.subst, ht⟩

theorem range {first last : Expr} (ihf : TypesDeclared c first) (ihl : TypesDeclared c last) :
    TypesDeclared c (.range first last) := by
  intro Γ hΓ
  rw [expr]
  refine (ihf Γ hΓ).bind fun ft hft => ?_
  refine Ensures.bind (.lift (unify_declared hft.type (Ty.declared_prim _ _))) fun s₁ hs₁ => ?_
  have hsub := hs₁.comp hft.subst
  refine (ihl _ (hΓ.apply hsub)).bind fun lt hlt => ?_
  refine Ensures.bind (.lift (unify_declared hlt.type (Ty.declared_prim _ _))) fun s₂ hs₂ => ?_
  exact .pure ⟨hs₂.comp (hlt.subst.comp hsub), Ty.declared_prim _ _⟩

theorem matchOn (hr : c.registry.SelfContained) {scrutinee : Expr} {arms : List (Pattern × Expr)}
    (ihs : TypesDeclared c scrutinee) (ih : ∀ arm ∈ arms, TypesDeclared c arm.2) :
    TypesDeclared c (.matchOn scrutinee arms) := by
  intro Γ hΓ
  rw [expr]
  refine (ihs Γ hΓ).bind fun vt hvt => fresh_declared.bind fun result hresult => ?_
  -- the check comes after the arms have been typed, so it does not fail
  refine (exprArms_declared hr ih hΓ hvt.type hresult _ hvt.subst).reached.bind ?_
  rintro s ⟨hs, hgives⟩
  refine (coverage_declared (allKnown_of_exprArms hgives)).bind fun _ _ => ?_
  exact .pure ⟨hs, hs.apply hresult⟩

end TypesDeclared

theorem expr_declared (hr : c.registry.SelfContained) (e : Expr) : TypesDeclared c e := by
  induction e with
  | lit l => exact .lit l
  | var name => exact .var name
  | lam param ascription body ih => exact .lam hr ih
  | app fn arg ihf iha => exact .app ihf iha
  | letIn name ascription value body ihv ihb => exact .letIn hr ihv ihb
  | letRec name ascription value body ihv ihb => exact .letRec hr ihv ihb
  | ite cond thenBranch elseBranch ihc iht ihe => exact .ite ihc iht ihe
  | binop op left right ihl ihr => exact .binop ihl ihr
  | construct name args ih => exact .construct hr ih
  | tuple elems ih => exact .tuple ih
  | proj tuple index ih => exact .proj ih
  | record fields ih => exact .record ih
  | access record label ih => exact .access ih
  | range first last ihf ihl => exact .range ihf ihl
  | matchOn scrutinee arms ihs ih => exact .matchOn hr ihs ih

end Infer

/-! ## Programs -/

/-- Every sum in the type is declared in the program as a sum, and not as a synonym, and has as many arguments
as the declaration has parameters. -/
def Ty.DeclaredBy (decls : List Decl) (t : Ty) : Prop :=
  ∀ (name : String) (ts : List Ty), (Ty.sum name ts).PartOf t →
    (∃ params constructors, Decl.sum name params constructors ∈ decls ∧ ts.length = params.length) ∧
      ¬ Decl.Synonym decls name

theorem Ty.Declared.declaredBy {decls : List Decl} {r : Registry} (hbuild : Registry.build decls = .ok r)
    {t : Ty} (h : t.Declared r.sums) : t.DeclaredBy decls := by
  intro name ts hpart
  obtain ⟨info, hinfo, hlen⟩ := h name ts hpart
  have hholds := Registry.build_holds hbuild
  have hnames := hholds.wellFormed.names_nodup
  rw [hholds.sums_eq, TypeTable.getElem?_ofSums hnames] at hinfo
  obtain ⟨params, constructors, hd, rfl⟩ := hinfo
  refine ⟨⟨params, constructors, hd, hlen⟩, ?_⟩
  rintro ⟨target, hsyn⟩
  exact absurd (decl_eq_of_name hnames hd hsyn rfl) (by simp)

/-- **Only declared types appear.** Every sum in the type of an accepted program, and in the types that an
error is about, is declared in the program and has all its arguments. -/
theorem typecheck_declared (p : Program) (options : Options) :
    match typecheck p options with
    | .ok checked => checked.scheme.body.DeclaredBy p.decls
    | .error e => ∀ t ∈ e.fault.types, t.DeclaredBy p.decls := by
  cases hbuild : Registry.build p.decls with
  | error e =>
      -- the declarations are rejected before there are any types
      have hfault := FailsOnDeclarations.build p.decls e hbuild
      rw [typecheck_of_build_error hbuild]
      intro t ht
      rw [hfault.types_eq] at ht
      exact absurd ht List.not_mem_nil
  | ok r =>
      have hself := Registry.build_selfContained hbuild
      have hyields := Infer.expr_declared (c := ⟨r, options.checkCoverage⟩) hself p.body ∅
        Env.declared_empty {}
      rcases hrun : (Infer.expr ⟨r, options.checkCoverage⟩ ∅ p.body).run.run {} with ⟨res, st⟩
      rw [hrun] at hyields
      cases hyields with
      | ok hty =>
          rw [typecheck_ok.mpr ⟨r, hbuild, _, st, hrun, rfl⟩]
          exact (hty.subst.apply hty.type).declaredBy hbuild
      | error he =>
          rw [typecheck_of_expr_error hbuild hrun]
          exact fun t ht => (he t ht).declaredBy hbuild

end Polytype
