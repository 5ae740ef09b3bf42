/-
# Polytype.Proofs.Registry.Ascription — an ascription is met exactly by what it allows.

Resolving an ascription gives a type in which a new variable stands for each name.  Whatever types are
put for these variables, the result is one that the ascription allows (`resolveWith_resolvesTo`), and
every type that the ascription allows comes about in this way (`resolveWith_reaches`).

The state of a resolution says which variable stands for which name.  A choice of types `ρ` for the
names is *read by* the state when it gives each name what the assignment gives its variable
(`NamedVars.ReadBy`): this is what the two directions hand on from one part of an expression to the
next.
-/
import Polytype.Proofs.Registry.WellFormed
import Polytype.Proofs.Settled
import Polytype.Proofs.Typing.Rules

namespace Polytype

/-! ## What a name denotes -/

theorem Prim.named?_name (p : Prim) : Prim.named? p.name = some p := by
  cases p <;> rfl

theorem Prim.name_of_named? {name : String} {p : Prim} (h : Prim.named? name = some p) :
    p.name = name := by
  simpa using List.find?_some h

namespace TypeTable

variable {table : TypeTable} {ρ : String → Ty} {name : String}

theorem means_of_closed {t : Ty} (h : table.closed? name = some t) :
    (TypeExpr.con name []).Means table ρ t := by
  unfold closed? at h
  split at h
  · next p hp =>
      cases h
      rw [← Prim.name_of_named? hp]
      exact .prim p
  · exact .synonym h

end TypeTable

namespace Registry.WellFormed

variable {r : Registry} {name : String}

theorem denote_prim (r : Registry) (p : Prim) : r.denote p.name 0 = .ok (.closed (.prim p)) := by
  simp [TypeTable.denote, TypeTable.closed?, Prim.named?_name]

theorem denote_synonym (hr : r.WellFormed) {t : Ty} (h : r.synonyms[name]? = some t) :
    r.denote name 0 = .ok (.closed t) := by
  simp [TypeTable.denote, TypeTable.closed?, hr.synonym_not_prim name t h, h]

theorem denote_sum (hr : r.WellFormed) {info : SumInfo} (h : r.sums[name]? = some info) :
    r.denote name info.params.length = .ok .sum := by
  simp [TypeTable.denote, TypeTable.closed?, hr.sum_not_prim name info h,
    hr.sum_not_synonym name info h, h]

end Registry.WellFormed

/-! ## States of a resolution -/

namespace NamedVars

/-- Every name stands for a variable that was drawn since `n`. -/
structure DrawnFrom (n : TyVar) (sc : NamedVars) : Prop where
  le_next : n ≤ sc.next
  mem_drawn : ∀ (x : String) (v : TyVar), sc.vars[x]? = some v → v ∈ grow ∅ n sc.next

/-- More names and more variables. -/
structure Extends (sc sc' : NamedVars) : Prop where
  next_le : sc.next ≤ sc'.next
  keeps : ∀ (x : String) (v : TyVar), sc.vars[x]? = some v → sc'.vars[x]? = some v

/-- Each name has the type that its variable is given. -/
def ReadBy (sc : NamedVars) (f : Assignment) (ρ : String → Ty) : Prop :=
  ∀ (x : String) (v : TyVar), sc.vars[x]? = some v → ρ x = f v

theorem Extends.refl (sc : NamedVars) : sc.Extends sc := ⟨Int.le_refl _, fun _ _ h => h⟩

theorem Extends.trans {sc sc' sc'' : NamedVars} (h : sc.Extends sc') (h' : sc'.Extends sc'') :
    sc.Extends sc'' :=
  ⟨Int.le_trans h.next_le h'.next_le, fun x v hv => h'.keeps x v (h.keeps x v hv)⟩

theorem Extends.readBy {sc sc' : NamedVars} (h : sc.Extends sc') {f : Assignment} {ρ : String → Ty}
    (hρ : sc'.ReadBy f ρ) : sc.ReadBy f ρ := fun x v hv => hρ x v (h.keeps x v hv)

/-- The state after a variable has been drawn for a name. -/
def draw (sc : NamedVars) (x : String) : NamedVars :=
  { vars := sc.vars.insert x sc.next, next := sc.next + 1 }

theorem start_ofName (x : String) (sc : NamedVars) :
    Resolve.start (ofName x) sc =
      match sc.vars[x]? with
      | some v => (.ok (.var v), sc)
      | none => (.ok (.var sc.next), sc.draw x) := by
  have hget : Resolve.start (get : Resolve NamedVars) sc = (.ok sc, sc) := rfl
  rw [ofName, Resolve.start_bind, hget]
  dsimp only
  cases sc.vars[x]? with
  | some v => rfl
  | none => rfl

theorem getElem?_draw (sc : NamedVars) (x y : String) :
    (sc.draw x).vars[y]? = if x = y then some sc.next else sc.vars[y]? := by
  simp only [draw, Std.ExtTreeMap.getElem?_insert, Std.LawfulEqCmp.compare_eq_iff_eq]

theorem extends_draw {sc : NamedVars} {x : String} (hx : sc.vars[x]? = none) :
    sc.Extends (sc.draw x) := by
  refine ⟨Int.le_of_lt (Int.lt_add_one_iff.mpr (Int.le_refl _)), fun y v hv => ?_⟩
  rw [getElem?_draw, if_neg]
  · exact hv
  · rintro rfl
    simp [hx] at hv

theorem DrawnFrom.draw {n : TyVar} {sc : NamedVars} (h : sc.DrawnFrom n) (x : String) :
    (sc.draw x).DrawnFrom n := by
  have hlt : sc.next < sc.next + 1 := Int.lt_add_one_iff.mpr (Int.le_refl _)
  refine ⟨Int.le_of_lt (Int.lt_of_le_of_lt h.le_next hlt), fun y v hv => ?_⟩
  rw [getElem?_draw] at hv
  split at hv
  · cases hv
    exact Or.inr ⟨h.le_next, hlt⟩
  · exact (h.mem_drawn y v hv).imp_right fun hv => ⟨hv.1, Int.lt_trans hv.2 hlt⟩

/-- The variable drawn for a name gets the type of the name. -/
theorem ReadBy.draw {n : TyVar} {sc : NamedVars} {f : Assignment} {ρ : String → Ty}
    (hsc : sc.DrawnFrom n) (h : sc.ReadBy f ρ) (x : String) :
    (sc.draw x).ReadBy (Function.update f sc.next (ρ x)) ρ := by
  intro y v hy
  rw [getElem?_draw] at hy
  split at hy
  · next hxy =>
      cases hy
      rw [Function.update_self, hxy]
  · rw [h y v hy, Function.update_of_ne]
    exact Int.ne_of_lt ((hsc.mem_drawn y v hy).resolve_left id).2

end NamedVars

/-! ## The state only grows -/

/-- The resolution, whether it succeeds or fails, keeps the variables of all names. -/
def Resolve.Extending {α : Type} (x : Resolve α) : Prop :=
  ∀ sc : NamedVars, sc.Extends (Resolve.start x sc).2

namespace Resolve.Extending

variable {α β : Type} {table : TypeTable}

theorem of_start {x : Resolve α} (hx : Extending x) {sc sc' : NamedVars} {res : Except TypeError α}
    (h : start x sc = (res, sc')) : sc.Extends sc' := by
  have hextends := hx sc
  rwa [h] at hextends

theorem pure (a : α) : Extending (Pure.pure a) := fun sc => .refl sc

theorem lift (x : Except TypeError α) : Extending (liftM x) := fun sc => .refl sc

theorem bind {x : Resolve α} {f : α → Resolve β} (hx : Extending x) (hf : ∀ a, Extending (f a)) :
    Extending (x >>= f) := by
  intro sc
  have h := hx sc
  rw [start_bind]
  rcases hrun : start x sc with ⟨e | a, sc'⟩ <;> rw [hrun] at h
  · exact h
  · exact h.trans (hf a sc')

theorem map {x : Resolve α} (f : α → β) (hx : Extending x) : Extending (f <$> x) := by
  rw [map_eq_pure_bind]
  exact hx.bind fun a => pure (f a)

theorem ofName (x : String) : Extending (NamedVars.ofName x) := by
  intro sc
  rw [NamedVars.start_ofName]
  split
  · exact .refl sc
  · next hx => exact NamedVars.extends_draw hx

theorem resolveList {es : List TypeExpr}
    (ih : ∀ e ∈ es, Extending (table.resolveWith NamedVars.ofName e)) :
    Extending (table.resolveList NamedVars.ofName es) := by
  induction es with
  | nil => exact pure []
  | cons e es ihes =>
      rw [TypeTable.resolveList]
      refine (ih e List.mem_cons_self).bind fun t => ?_
      exact (ihes fun e' he' => ih e' (List.mem_cons_of_mem e he')).bind fun ts => pure _

theorem resolveWith (e : TypeExpr) : Extending (table.resolveWith NamedVars.ofName e) := by
  induction e with
  | con name args ih =>
      rw [TypeTable.resolveWith]
      refine (lift _).bind fun d => ?_
      cases d with
      | closed t => exact pure t
      | sum => exact (resolveList ih).bind fun ts => pure _
  | var name => exact ofName name
  | arrow dom cod ihd ihc =>
      rw [TypeTable.resolveWith]
      exact ihd.bind fun a => ihc.bind fun b => pure _
  | tuple elems ih =>
      rw [TypeTable.resolveWith]
      exact (resolveList ih).bind fun ts => pure _
  | record fields ih =>
      rw [TypeTable.resolveWith, TypeTable.resolveFields_eq]
      exact ((resolveList (List.forall_mem_map.mpr ih)).map _).bind fun fs => pure _

end Resolve.Extending

/-! ## Steps of a resolution -/

namespace TypeTable

section Steps

variable {table : TypeTable} {sc sc' : NamedVars} {t : Ty}

theorem start_resolveWith_con {name : String} {args : List TypeExpr} :
    Resolve.start (table.resolveWith NamedVars.ofName (.con name args)) sc = (.ok t, sc') ↔
      table.denote name args.length = .ok (.closed t) ∧ sc = sc' ∨
      table.denote name args.length = .ok .sum ∧
        ∃ ts sc₁, Resolve.start (table.resolveList NamedVars.ofName args) sc = (.ok ts, sc₁) ∧
          .sum name ts = t ∧ sc₁ = sc' := by
  rw [resolveWith, Resolve.start_bind_ok]
  constructor
  · rintro ⟨d, sc₁, hlift, h⟩
    obtain ⟨hd, rfl⟩ := Resolve.start_lift_ok.mp hlift
    cases d with
    | closed u =>
        obtain ⟨rfl, rfl⟩ := Resolve.start_pure_ok.mp h
        exact Or.inl ⟨hd, rfl⟩
    | sum =>
        simp only [Resolve.start_bind_ok, Resolve.start_pure_ok] at h
        exact Or.inr ⟨hd, h⟩
  · rintro (⟨hd, rfl⟩ | ⟨hd, h⟩)
    · exact ⟨.closed t, sc, Resolve.start_lift_ok.mpr ⟨hd, rfl⟩, rfl⟩
    · refine ⟨.sum, sc, Resolve.start_lift_ok.mpr ⟨hd, rfl⟩, ?_⟩
      simp only [Resolve.start_bind_ok, Resolve.start_pure_ok]
      exact h

theorem start_resolveWith_arrow {dom cod : TypeExpr} :
    Resolve.start (table.resolveWith NamedVars.ofName (.arrow dom cod)) sc = (.ok t, sc') ↔
      ∃ a sc₁, Resolve.start (table.resolveWith NamedVars.ofName dom) sc = (.ok a, sc₁) ∧
      ∃ b sc₂, Resolve.start (table.resolveWith NamedVars.ofName cod) sc₁ = (.ok b, sc₂) ∧
        .fn a b = t ∧ sc₂ = sc' := by
  rw [resolveWith]
  simp only [Resolve.start_bind_ok, Resolve.start_pure_ok]

theorem start_resolveWith_tuple {elems : List TypeExpr} :
    Resolve.start (table.resolveWith NamedVars.ofName (.tuple elems)) sc = (.ok t, sc') ↔
      ∃ ts sc₁, Resolve.start (table.resolveList NamedVars.ofName elems) sc = (.ok ts, sc₁) ∧
        .tuple ts = t ∧ sc₁ = sc' := by
  rw [resolveWith]
  simp only [Resolve.start_bind_ok, Resolve.start_pure_ok]

theorem start_resolveWith_record {fields : List (String × TypeExpr)} :
    Resolve.start (table.resolveWith NamedVars.ofName (.record fields)) sc = (.ok t, sc') ↔
      ∃ ts sc₁, Resolve.start (table.resolveList NamedVars.ofName (fields.map Prod.snd)) sc =
          (.ok ts, sc₁) ∧
        .record ((fields.map Prod.fst).zip ts) = t ∧ sc₁ = sc' := by
  rw [resolveWith, resolveFields_eq, map_eq_pure_bind]
  simp only [Resolve.start_bind_ok, Resolve.start_pure_ok]
  constructor
  · rintro ⟨-, sc₁, ⟨ts, sc₂, hts, rfl, rfl⟩, rfl, rfl⟩
    exact ⟨ts, sc₂, hts, rfl, rfl⟩
  · rintro ⟨ts, sc₁, hts, rfl, rfl⟩
    exact ⟨_, sc₁, ⟨ts, sc₁, hts, rfl, rfl⟩, rfl, rfl⟩

theorem start_resolveList_cons {e : TypeExpr} {es : List TypeExpr} {ts : List Ty} :
    Resolve.start (table.resolveList NamedVars.ofName (e :: es)) sc = (.ok ts, sc') ↔
      ∃ u sc₁, Resolve.start (table.resolveWith NamedVars.ofName e) sc = (.ok u, sc₁) ∧
      ∃ us sc₂, Resolve.start (table.resolveList NamedVars.ofName es) sc₁ = (.ok us, sc₂) ∧
        u :: us = ts ∧ sc₂ = sc' := by
  rw [resolveList]
  simp only [Resolve.start_bind_ok, Resolve.start_pure_ok]

end Steps

/-! ## Resolution is sound -/

variable {table : TypeTable} {n : TyVar}

/-- A resolution of an expression from `sc` to `sc'` that gives the type `t`: the type is over the
variables drawn, and means what the expression means. -/
structure ResolvesTo (table : TypeTable) (n : TyVar) (sc : NamedVars) (e : TypeExpr) (t : Ty)
    (sc' : NamedVars) : Prop where
  drawnFrom : sc'.DrawnFrom n
  scope_extends : sc.Extends sc'
  within : t.Within (grow ∅ n sc'.next)
  means : ∀ (f : Assignment) (ρ : String → Ty), sc'.ReadBy f ρ → e.Means table ρ (t.assign f)

/-- The same for a list of expressions. -/
structure ResolveTo (table : TypeTable) (n : TyVar) (sc : NamedVars) (es : List TypeExpr)
    (ts : List Ty) (sc' : NamedVars) : Prop where
  drawnFrom : sc'.DrawnFrom n
  scope_extends : sc.Extends sc'
  within : ∀ t ∈ ts, t.Within (grow ∅ n sc'.next)
  means : ∀ (f : Assignment) (ρ : String → Ty), sc'.ReadBy f ρ →
    TypeExpr.MeanAll table ρ es (ts.map (Ty.assign f))

theorem resolveList_resolveTo {es : List TypeExpr}
    (ih : ∀ e ∈ es, ∀ {sc sc' : NamedVars} {t : Ty}, sc.DrawnFrom n →
      Resolve.start (table.resolveWith NamedVars.ofName e) sc = (.ok t, sc') →
      table.ResolvesTo n sc e t sc') :
    ∀ {sc sc' : NamedVars} {ts : List Ty}, sc.DrawnFrom n →
      Resolve.start (table.resolveList NamedVars.ofName es) sc = (.ok ts, sc') →
      table.ResolveTo n sc es ts sc' := by
  induction es with
  | nil =>
      intro sc sc' ts hsc h
      rw [resolveList, Resolve.start_pure_ok] at h
      obtain ⟨rfl, rfl⟩ := h
      exact ⟨hsc, .refl sc, by simp, fun _ _ _ => .nil⟩
  | cons e es ihes =>
      intro sc sc' ts hsc h
      obtain ⟨t, sc₁, ht, us, sc₂, hus, rfl, rfl⟩ := start_resolveList_cons.mp h
      have h₁ := ih e List.mem_cons_self hsc ht
      have h₂ := ihes (fun e' he' => ih e' (List.mem_cons_of_mem e he')) h₁.drawnFrom hus
      refine ⟨h₂.drawnFrom, h₁.scope_extends.trans h₂.scope_extends, ?_, fun f ρ hρ => ?_⟩
      · refine List.forall_mem_cons.mpr ⟨?_, h₂.within⟩
        exact h₁.within.mono (grow_mono_next ∅ n h₂.scope_extends.next_le)
      · exact .cons (h₁.means f ρ (h₂.scope_extends.readBy hρ)) (h₂.means f ρ hρ)

theorem resolveWith_resolvesTo (hc : table.Closed) (e : TypeExpr) :
    ∀ {sc sc' : NamedVars} {t : Ty}, sc.DrawnFrom n →
      Resolve.start (table.resolveWith NamedVars.ofName e) sc = (.ok t, sc') →
      table.ResolvesTo n sc e t sc' := by
  induction e with
  | con name args ih =>
      intro sc sc' t hsc h
      rcases start_resolveWith_con.mp h with ⟨hd, rfl⟩ | ⟨hd, ts, sc₁, hts, rfl, rfl⟩
      · obtain ⟨hargs, hclosed⟩ := denote_closed hd
        have hu := closed?_vars hc hclosed
        obtain rfl := List.length_eq_zero_iff.mp hargs
        refine ⟨hsc, .refl sc, by simp [Ty.Within, hu], fun f ρ _ => ?_⟩
        rw [Ty.assign_of_vars_nil hu]
        exact means_of_closed hclosed
      · have hres := resolveList_resolveTo ih hsc hts
        obtain ⟨info, hinfo, hlen⟩ := denote_sum hd
        refine ⟨hres.drawnFrom, hres.scope_extends, Ty.within_sum.mpr hres.within, fun f ρ hρ => ?_⟩
        rw [Ty.assign_sum]
        exact .sum hinfo hlen (hres.means f ρ hρ)
  | var x =>
      intro sc sc' t hsc h
      rw [resolveWith, NamedVars.start_ofName] at h
      split at h
      · next v hv =>
          cases h
          refine ⟨hsc, .refl sc, Ty.within_var.mpr (hsc.mem_drawn x v hv), fun f ρ hρ => ?_⟩
          rw [Ty.assign_var, ← hρ x v hv]
          exact .var x
      · next hx =>
          cases h
          have hdraw : (sc.draw x).vars[x]? = some sc.next := by simp [NamedVars.getElem?_draw]
          refine ⟨hsc.draw x, NamedVars.extends_draw hx, ?_, fun f ρ hρ => ?_⟩
          · exact Ty.within_var.mpr ((hsc.draw x).mem_drawn x _ hdraw)
          · rw [Ty.assign_var, ← hρ x _ hdraw]
            exact .var x
  | arrow dom cod ihd ihc =>
      intro sc sc' t hsc h
      obtain ⟨a, sc₁, ha, b, sc₂, hb, rfl, rfl⟩ := start_resolveWith_arrow.mp h
      have h₁ := ihd hsc ha
      have h₂ := ihc h₁.drawnFrom hb
      refine ⟨h₂.drawnFrom, h₁.scope_extends.trans h₂.scope_extends, ?_, fun f ρ hρ => ?_⟩
      · refine Ty.within_fn.mpr ⟨?_, h₂.within⟩
        exact h₁.within.mono (grow_mono_next ∅ n h₂.scope_extends.next_le)
      · exact .arrow (h₁.means f ρ (h₂.scope_extends.readBy hρ)) (h₂.means f ρ hρ)
  | tuple elems ih =>
      intro sc sc' t hsc h
      obtain ⟨ts, sc₁, hts, rfl, rfl⟩ := start_resolveWith_tuple.mp h
      have hres := resolveList_resolveTo ih hsc hts
      refine ⟨hres.drawnFrom, hres.scope_extends, Ty.within_tuple.mpr hres.within, fun f ρ hρ => ?_⟩
      rw [Ty.assign_tuple]
      exact .tuple (hres.means f ρ hρ)
  | record fields ih =>
      intro sc sc' t hsc h
      obtain ⟨ts, sc₁, hts, rfl, rfl⟩ := start_resolveWith_record.mp h
      have hres := resolveList_resolveTo (List.forall_mem_map.mpr ih) hsc hts
      refine ⟨hres.drawnFrom, hres.scope_extends, ?_, fun f ρ hρ => ?_⟩
      · exact Ty.within_record.mpr fun g hg => hres.within g.2 (List.of_mem_zip hg).2
      · rw [Ty.assign_record_zip]
        exact .record (hres.means f ρ hρ)

end TypeTable

/-! ## Resolution is complete -/

namespace Registry.WellFormed

variable {r : Registry} {n : TyVar} {ρ : String → Ty}

/-- The expression resolves, and under some assignment that agrees with `f` on the variables drawn so
far the result is `T`. -/
def Reaches (r : Registry) (ρ : String → Ty) (sc : NamedVars) (f : Assignment) (e : TypeExpr)
    (T : Ty) : Prop :=
  ∃ (t : Ty) (sc' : NamedVars) (g : Assignment),
    Resolve.start (r.resolveWith NamedVars.ofName e) sc = (.ok t, sc') ∧ f.Agree sc.next g ∧
      sc'.ReadBy g ρ ∧ t.assign g = T

theorem resolveList_reaches (hr : r.WellFormed) {es : List TypeExpr}
    (ih : ∀ e ∈ es, ∀ {sc : NamedVars} {f : Assignment} {T : Ty}, sc.DrawnFrom n → sc.ReadBy f ρ →
      e.Means r.toTypeTable ρ T → Reaches r ρ sc f e T) :
    ∀ {sc : NamedVars} {f : Assignment} {Ts : List Ty}, sc.DrawnFrom n → sc.ReadBy f ρ →
      TypeExpr.MeanAll r.toTypeTable ρ es Ts →
      ∃ (ts : List Ty) (sc' : NamedVars) (g : Assignment),
        Resolve.start (r.resolveList NamedVars.ofName es) sc = (.ok ts, sc') ∧ f.Agree sc.next g ∧
          sc'.ReadBy g ρ ∧ ts.map (Ty.assign g) = Ts := by
  induction es with
  | nil =>
      intro sc f Ts _ hf h
      cases h
      exact ⟨[], sc, f, rfl, .refl sc.next f, hf, rfl⟩
  | cons e es ihes =>
      intro sc f Ts hsc hf h
      cases h with
      | @cons _ _ T Ts he hes =>
          obtain ⟨t, sc₁, g, ht, hfg, hg, rfl⟩ := ih e List.mem_cons_self hsc hf he
          have hres := TypeTable.resolveWith_resolvesTo hr.synonym_closed e hsc ht
          obtain ⟨ts, sc₂, k, hts, hgk, hk, rfl⟩ :=
            ihes (fun e' he' => ih e' (List.mem_cons_of_mem e he')) hres.drawnFrom hg hes
          refine ⟨t :: ts, sc₂, k, ?_, hfg.trans hres.scope_extends.next_le hgk, hk, ?_⟩
          · exact TypeTable.start_resolveList_cons.mpr ⟨t, sc₁, ht, ts, sc₂, hts, rfl, rfl⟩
          · -- what is resolved later leaves the type of the first member as it is
            rw [List.map_cons, hgk.assign_eq below_grow_empty hres.within]

theorem resolveWith_reaches (hr : r.WellFormed) (e : TypeExpr) :
    ∀ {sc : NamedVars} {f : Assignment} {T : Ty}, sc.DrawnFrom n → sc.ReadBy f ρ →
      e.Means r.toTypeTable ρ T → Reaches r ρ sc f e T := by
  induction e with
  | con name args ih =>
      intro sc f T hsc hf h
      unfold Reaches
      cases h with
      | prim p =>
          refine ⟨.prim p, sc, f, ?_, .refl sc.next f, hf, rfl⟩
          exact TypeTable.start_resolveWith_con.mpr (Or.inl ⟨denote_prim r p, rfl⟩)
      | synonym h =>
          refine ⟨T, sc, f, ?_, .refl sc.next f, hf, Ty.assign_of_vars_nil (hr.synonym_closed _ _ h)⟩
          exact TypeTable.start_resolveWith_con.mpr (Or.inl ⟨hr.denote_synonym h, rfl⟩)
      | sum hinfo hlen hargs =>
          obtain ⟨ts, sc', g, hts, hfg, hg, rfl⟩ := resolveList_reaches hr ih hsc hf hargs
          refine ⟨.sum name ts, sc', g, ?_, hfg, hg, Ty.assign_sum g name ts⟩
          refine TypeTable.start_resolveWith_con.mpr (Or.inr ⟨?_, ts, sc', hts, rfl, rfl⟩)
          rw [hlen]
          exact hr.denote_sum hinfo
  | var x =>
      intro sc f T hsc hf h
      unfold Reaches
      rw [TypeTable.resolveWith, NamedVars.start_ofName]
      cases h
      cases hx : sc.vars[x]? with
      | some v => exact ⟨.var v, sc, f, rfl, .refl sc.next f, hf, (hf x v hx).symm⟩
      | none =>
          refine ⟨.var sc.next, sc.draw x, Function.update f sc.next (ρ x), rfl, fun v hv => ?_,
            hf.draw hsc x, Function.update_self _ _ _⟩
          exact Function.update_of_ne (Int.ne_of_lt hv) _ _
  | arrow dom cod ihd ihc =>
      intro sc f T hsc hf h
      cases h with
      | arrow hd hc =>
          obtain ⟨a, sc₁, g, ha, hfg, hg, rfl⟩ := ihd hsc hf hd
          have hres := TypeTable.resolveWith_resolvesTo hr.synonym_closed dom hsc ha
          obtain ⟨b, sc₂, k, hb, hgk, hk, rfl⟩ := ihc hres.drawnFrom hg hc
          refine ⟨.fn a b, sc₂, k, ?_, hfg.trans hres.scope_extends.next_le hgk, hk, ?_⟩
          · exact TypeTable.start_resolveWith_arrow.mpr ⟨a, sc₁, ha, b, sc₂, hb, rfl, rfl⟩
          · rw [Ty.assign_fn, hgk.assign_eq below_grow_empty hres.within]
  | tuple elems ih =>
      intro sc f T hsc hf h
      cases h with
      | tuple helems =>
          obtain ⟨ts, sc', g, hts, hfg, hg, rfl⟩ := resolveList_reaches hr ih hsc hf helems
          exact ⟨.tuple ts, sc', g, TypeTable.start_resolveWith_tuple.mpr ⟨ts, sc', hts, rfl, rfl⟩, hfg,
            hg, Ty.assign_tuple g ts⟩
  | record fields ih =>
      intro sc f T hsc hf h
      cases h with
      | record hfields =>
          obtain ⟨ts, sc', g, hts, hfg, hg, rfl⟩ :=
            resolveList_reaches hr (List.forall_mem_map.mpr ih) hsc hf hfields
          exact ⟨.record ((fields.map Prod.fst).zip ts), sc', g,
            TypeTable.start_resolveWith_record.mpr ⟨ts, sc', hts, rfl, rfl⟩, hfg, hg,
            Ty.assign_record_zip g _ ts⟩

end Registry.WellFormed

end Polytype
