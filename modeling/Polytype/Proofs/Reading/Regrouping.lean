/-
# Polytype.Proofs.Reading.Regrouping — which expressions have the same text.

Since open expressions have no mark at their end, a text may be that of several expressions.  Among them is one
that takes every part to belong as far inside as it can: a selection to the last part of the open expression before
it, an arm to the last match before it, and an argument to the constructor before it.  Each expression can be
regrouped in this way (`regrouped`) without a change of its text (`render_regrouped`), and the result is delimited
(`legible_regrouped`).  So two expressions have the same text exactly if they are regrouped alike
(`Expr.render_eq_iff_regrouped`); in particular, delimited expressions are determined by their texts.
-/
import Polytype.Proofs.Reading.Expr

namespace Polytype

open Reader Text

namespace Expr

/-! ## Delimited expressions are determined by their texts -/

/-- All names are valid, and the end of every part shows. -/
def Legible (e : Expr) : Prop := e.lexical = true ∧ e.delimited = true

theorem legible_iff {e : Expr} :
    e.Legible ↔ (e.validHere = true ∧ e.delimitedHere = true) ∧ ∀ c ∈ e.children, c.Legible := by
  rw [Legible, lexical, delimited, all_iff, all_iff]
  constructor
  · rintro ⟨⟨hvalid, hlexical⟩, hends, hdelimited⟩
    exact ⟨⟨hvalid, hends⟩, fun c hc => ⟨hlexical c hc, hdelimited c hc⟩⟩
  · rintro ⟨⟨hvalid, hends⟩, hparts⟩
    exact ⟨⟨hvalid, fun c hc => (hparts c hc).1⟩, hends, fun c hc => (hparts c hc).2⟩

/-- Both expressions are what the reader takes from the text. -/
theorem Legible.eq_of_render_eq {e e' : Expr} (he : e.Legible) (he' : e'.Legible) (h : e.render = e'.render) :
    e = e' := by
  have htaken := (readBack he.1 he.2).taken.closes
  have htaken' := (readBack he'.1 he'.2).taken.closes
  obtain ⟨n, hn, hn'⟩ := (htaken.and htaken').exists
  exact hn.unique (h ▸ hn') ⟨by simp [Stops], rfl⟩

/-! ## Regrouping -/

mutual
/-- The expression with a change made where it ends. -/
def atEnd (f : Expr → Expr) : Expr → Expr
  | .lam param ascribed body => .lam param ascribed (body.atEnd f)
  | .letIn name ascribed value body => .letIn name ascribed value (body.atEnd f)
  | .letRec name ascribed value body => .letRec name ascribed value (body.atEnd f)
  | .ite c t e => .ite c t (e.atEnd f)
  | .range first last => .range first (last.atEnd f)
  | .matchOn scrutinee arms =>
    if arms.isEmpty then f (.matchOn scrutinee arms) else .matchOn scrutinee (atEndArms f arms)
  | e => f e
/-- The arms with a change made where the last one ends. -/
def atEndArms (f : Expr → Expr) : List (Pattern × Expr) → List (Pattern × Expr)
  | [] => []
  | (p, e) :: arms => if arms.isEmpty then [(p, e.atEnd f)] else (p, e) :: atEndArms f arms
end

mutual
/-- The expression with more arms for the match that it ends in. -/
def addArms (more : List (Pattern × Expr)) : Expr → Expr
  | .lam param ascribed body => .lam param ascribed (body.addArms more)
  | .letIn name ascribed value body => .letIn name ascribed value (body.addArms more)
  | .letRec name ascribed value body => .letRec name ascribed value (body.addArms more)
  | .ite c t e => .ite c t (e.addArms more)
  | .range first last => .range first (last.addArms more)
  | .matchOn scrutinee arms => .matchOn scrutinee (joinArms more arms)
  | e => e
/-- The arms and more after them, which belong to the last one if it ends in a match. -/
def joinArms (more : List (Pattern × Expr)) : List (Pattern × Expr) → List (Pattern × Expr)
  | [] => more
  | (p, e) :: arms =>
    if arms.isEmpty && e.endsInMatch then [(p, e.addArms more)] else (p, e) :: joinArms more arms
end

/-- The arms, of which those after one that ends in a match belong to that one. -/
def nestArms : List (Pattern × Expr) → List (Pattern × Expr)
  | [] => []
  | (p, e) :: arms =>
    if e.endsInMatch && !arms.isEmpty then [(p, e.addArms (nestArms arms))] else (p, e) :: nestArms arms

/-- The application, of a constructor to its argument if it looks like that. -/
def applyTo (fn arg : Expr) : Expr :=
  match fn.bareName? with
  | some name => .construct name [arg]
  | none => .app fn arg

mutual
/-- The expression in which every part belongs as far inside as its text allows. -/
def regrouped : Expr → Expr
  | .lit l => .lit l
  | .var name => .var name
  | .lam param ascribed body => .lam param ascribed body.regrouped
  | .app fn arg => fn.regrouped.applyTo arg.regrouped
  | .letIn name ascribed value body => .letIn name ascribed value.regrouped body.regrouped
  | .letRec name ascribed value body => .letRec name ascribed value.regrouped body.regrouped
  | .ite c t e => .ite c.regrouped t.regrouped e.regrouped
  | .binop op l r => .binop op l.regrouped r.regrouped
  | .construct name args => .construct name (regroupedList args)
  | .tuple elems => .tuple (regroupedList elems)
  | .proj e index => e.regrouped.atEnd (.proj · index)
  | .record fields => .record (regroupedFields fields)
  | .access e field => e.regrouped.atEnd (.access · field)
  | .range first last => first.regrouped.atEnd (.range · last.regrouped)
  | .matchOn scrutinee arms => .matchOn scrutinee.regrouped (nestArms (regroupedArms arms))
/-- The regrouped expressions of a list. -/
def regroupedList : List Expr → List Expr
  | [] => []
  | e :: es => e.regrouped :: regroupedList es
/-- The regrouped expressions with their labels. -/
def regroupedFields : List (String × Expr) → List (String × Expr)
  | [] => []
  | (l, e) :: fs => (l, e.regrouped) :: regroupedFields fs
/-- The arms with regrouped bodies. -/
def regroupedArms : List (Pattern × Expr) → List (Pattern × Expr)
  | [] => []
  | (p, e) :: arms => (p, e.regrouped) :: regroupedArms arms
end

theorem regroupedList_eq (es : List Expr) : regroupedList es = es.map regrouped := by
  induction es with
  | nil => rfl
  | cons e es ih => rw [regroupedList, ih, List.map_cons]

theorem regroupedFields_eq (fs : List (String × Expr)) :
    regroupedFields fs = fs.map fun f => (f.1, f.2.regrouped) := by
  induction fs with
  | nil => rfl
  | cons f fs ih => rw [regroupedFields, ih, List.map_cons]

theorem regroupedArms_eq (arms : List (Pattern × Expr)) :
    regroupedArms arms = arms.map fun a => (a.1, a.2.regrouped) := by
  induction arms with
  | nil => rfl
  | cons a arms ih => rw [regroupedArms, ih, List.map_cons]

/-! ## At the last arm -/

theorem atEndArms_concat (f : Expr → Expr) (init : List (Pattern × Expr)) (a : Pattern × Expr) :
    atEndArms f (init ++ [a]) = init ++ [(a.1, a.2.atEnd f)] := by
  induction init with
  | nil => rfl
  | cons b init ih => rw [List.cons_append, atEndArms, if_neg (by simp), ih, List.cons_append]

theorem joinArms_concat (more init : List (Pattern × Expr)) (a : Pattern × Expr) :
    joinArms more (init ++ [a]) = init ++ if a.2.endsInMatch then [(a.1, a.2.addArms more)] else a :: more := by
  induction init with
  | nil => cases h : a.2.endsInMatch <;> simp [joinArms, h]
  | cons b init ih => rw [List.cons_append, joinArms, if_neg (by simp), ih, List.cons_append]

theorem renderArms_append (as bs : List (Pattern × Expr)) :
    renderArms (as ++ bs) = renderArms as ++ renderArms bs := by
  induction as with
  | nil => rw [List.nil_append, renderArms, String.empty_append]
  | cons a as ih => simp only [List.cons_append, renderArms, ih, String.append_assoc]

theorem renderArms_singleton (a : Pattern × Expr) :
    renderArms [a] = " | " ++ a.1.render ++ " -> " ++ a.2.render := by
  rw [renderArms, renderArms, String.append_empty]

/-! ## Texts of regrouped expressions -/

theorem render_atEnd {f : Expr → Expr} {s : String} (hf : ∀ e, (f e).render = e.render ++ s) (e : Expr) :
    (e.atEnd f).render = e.render ++ s := by
  induction e with
  | lam param ascribed body ih => simp only [atEnd, render, ih, String.append_assoc]
  | letIn name ascribed value body _ ih => simp only [atEnd, render, ih, String.append_assoc]
  | letRec name ascribed value body _ ih => simp only [atEnd, render, ih, String.append_assoc]
  | ite c t e _ _ ih => simp only [atEnd, render, ih, String.append_assoc]
  | range first last _ ih => simp only [atEnd, render, ih, String.append_assoc]
  | matchOn scrutinee arms _ ih =>
      rw [atEnd]
      rcases List.eq_nil_or_concat arms with rfl | ⟨init, a, rfl⟩
      · exact hf _
      · rw [List.concat_eq_append] at ih ⊢
        rw [if_neg (by simp), atEndArms_concat, render, render, renderArms_append, renderArms_append,
          renderArms_singleton, renderArms_singleton, ih a (by simp)]
        simp only [String.append_assoc]
  | _ => exact hf _

theorem render_addArms (more : List (Pattern × Expr)) {e : Expr} (h : e.endsInMatch = true) :
    (e.addArms more).render = e.render ++ renderArms more := by
  induction e with
  | lam param ascribed body ih => simp only [addArms, render, ih h, String.append_assoc]
  | letIn name ascribed value body _ ih => simp only [addArms, render, ih h, String.append_assoc]
  | letRec name ascribed value body _ ih => simp only [addArms, render, ih h, String.append_assoc]
  | ite c t e _ _ ih => simp only [addArms, render, ih h, String.append_assoc]
  | range first last _ ih => simp only [addArms, render, ih h, String.append_assoc]
  | matchOn scrutinee arms _ ih =>
      rw [addArms]
      rcases List.eq_nil_or_concat arms with rfl | ⟨init, a, rfl⟩
      · rw [joinArms, render, render, renderArms, String.append_empty]
      · rw [List.concat_eq_append] at ih ⊢
        rw [joinArms_concat, render, render, renderArms_append, renderArms_append, renderArms_singleton]
        split
        next ha =>
          rw [renderArms_singleton, ih a (by simp) ha]
          simp only [String.append_assoc]
        next =>
          rw [renderArms]
          simp only [String.append_assoc]
  | _ => cases h

theorem renderArms_nestArms (arms : List (Pattern × Expr)) : renderArms (nestArms arms) = renderArms arms := by
  induction arms with
  | nil => rfl
  | cons a arms ih =>
      rw [nestArms]
      split
      next h =>
        rw [Bool.and_eq_true] at h
        rw [renderArms_singleton, render_addArms _ h.1, ih, renderArms]
        simp only [String.append_assoc]
      next => rw [renderArms, renderArms, ih]

theorem eq_of_bareName? {e : Expr} {name : String} (h : e.bareName? = some name) : e = .construct name [] := by
  unfold bareName? at h
  split at h
  next =>
    cases h
    rfl
  next => cases h

theorem render_applyTo (fn arg : Expr) : (fn.applyTo arg).render = render (.app fn arg) := by
  rw [applyTo]
  split
  next name h =>
    rw [eq_of_bareName? h, render, render, render_construct_nil, renderArgs, renderArgs, String.append_empty]
    simp [parensIf, parens, String.append_assoc]
  next => rfl

/-- Regrouping does not change the text. -/
theorem render_regrouped (e : Expr) : e.regrouped.render = e.render := by
  induction e with
  | lam param ascribed body ih => simp only [regrouped, render, ih]
  | app fn arg ihf iha => simp only [regrouped, render_applyTo, render, ihf, iha]
  | letIn name ascribed value body ihv ihb => simp only [regrouped, render, ihv, ihb]
  | letRec name ascribed value body ihv ihb => simp only [regrouped, render, ihv, ihb]
  | ite c t e ihc iht ihe => simp only [regrouped, render, ihc, iht, ihe]
  | binop op l r ihl ihr => simp only [regrouped, render, ihl, ihr]
  | construct name args ih =>
      have hmap : args.map ((fun e => " " ++ e.render) ∘ regrouped) = args.map fun e => " " ++ e.render :=
        List.map_congr_left fun e he => by simp only [Function.comp_apply, ih e he]
      rw [regrouped, render, render, renderArgs_eq, renderArgs_eq, regroupedList_eq, List.map_map, hmap,
        List.isEmpty_map]
  | tuple elems ih =>
      have hmap : elems.map (render ∘ regrouped) = elems.map render := List.map_congr_left ih
      rw [regrouped, render, render, renderList_eq, renderList_eq, regroupedList_eq, List.map_map, hmap]
  | proj e index ih =>
      have hproj : ∀ e, (Expr.proj e index).render = e.render ++ ("." ++ toString index) := fun e => by
        rw [render, String.append_assoc]
      rw [regrouped, render_atEnd hproj, ih, hproj]
  | record fields ih =>
      have hmap : fields.map ((fun f => f.1 ++ ": " ++ f.2.render) ∘ fun f => (f.1, f.2.regrouped)) =
          fields.map fun f => f.1 ++ ": " ++ f.2.render :=
        List.map_congr_left fun f hf => by simp only [Function.comp_apply, ih f hf]
      rw [regrouped, render, render, renderFields_eq, renderFields_eq, regroupedFields_eq, List.map_map, hmap]
  | access e field ih =>
      have haccess : ∀ e, (Expr.access e field).render = e.render ++ ("." ++ field) := fun e => by
        rw [render, String.append_assoc]
      rw [regrouped, render_atEnd haccess, ih, haccess]
  | range first last ihf ihl =>
      have hrange : ∀ e, (Expr.range e last.regrouped).render = e.render ++ (".." ++ last.render) := fun e => by
        rw [render, String.append_assoc, ihl]
      rw [regrouped, render_atEnd hrange, ihf, render, String.append_assoc]
  | matchOn scrutinee arms ihs iha =>
      have hmap : arms.map ((fun a => " | " ++ a.1.render ++ " -> " ++ a.2.render) ∘
          fun a => (a.1, a.2.regrouped)) = arms.map fun a => " | " ++ a.1.render ++ " -> " ++ a.2.render :=
        List.map_congr_left fun a ha => by simp only [Function.comp_apply, iha a ha]
      rw [regrouped, render, render, renderArms_nestArms, renderArms_eq, renderArms_eq, regroupedArms_eq,
        List.map_map, hmap, ihs]
  | _ => rfl

/-! ## Regrouped expressions are delimited -/

/-- The arms of a match that is legible. -/
structure LegibleArms (arms : List (Pattern × Expr)) : Prop where
  patterns : ∀ a ∈ arms, a.1.lexical = true
  bodies : ∀ a ∈ arms, a.2.Legible
  last : ∀ a ∈ arms.dropLast, a.2.endsInMatch = false

theorem legible_matchOn_iff {scrutinee : Expr} {arms : List (Pattern × Expr)} :
    (Expr.matchOn scrutinee arms).Legible ↔ scrutinee.Legible ∧ LegibleArms arms := by
  rw [legible_iff]
  simp only [validHere, delimitedHere, children, List.all_eq_true, Bool.not_eq_true', List.forall_mem_cons,
    List.forall_mem_map]
  constructor
  · rintro ⟨⟨hpatterns, hlast⟩, hscrutinee, hbodies⟩
    exact ⟨hscrutinee, hpatterns, hbodies, hlast⟩
  · rintro ⟨hscrutinee, harms⟩
    exact ⟨⟨harms.patterns, harms.last⟩, hscrutinee, harms.bodies⟩

/-- Arms that do not end in a match can be followed by others. -/
theorem LegibleArms.append {as bs : List (Pattern × Expr)} (has : LegibleArms as) (hbs : LegibleArms bs)
    (hends : ∀ a ∈ as, a.2.endsInMatch = false) : LegibleArms (as ++ bs) := by
  refine ⟨?_, ?_, ?_⟩
  · exact List.forall_mem_append.mpr ⟨has.patterns, hbs.patterns⟩
  · exact List.forall_mem_append.mpr ⟨has.bodies, hbs.bodies⟩
  · by_cases hne : bs = []
    · rw [hne, List.append_nil]
      exact has.last
    · rw [List.dropLast_append_of_ne_nil hne]
      exact List.forall_mem_append.mpr ⟨hends, hbs.last⟩

theorem legibleArms_singleton {p : Pattern} {e : Expr} (hp : p.lexical = true) (he : e.Legible) :
    LegibleArms [(p, e)] := ⟨by simpa using hp, by simpa using he, by simp⟩

theorem LegibleArms.of_concat {init : List (Pattern × Expr)} {a : Pattern × Expr} (h : LegibleArms (init ++ [a])) :
    LegibleArms init ∧ (∀ b ∈ init, b.2.endsInMatch = false) ∧ a.1.lexical = true ∧ a.2.Legible := by
  have hlast : ∀ b ∈ init, b.2.endsInMatch = false := by simpa using h.last
  have hpatterns := List.forall_mem_append.mp h.patterns
  have hbodies := List.forall_mem_append.mp h.bodies
  refine ⟨⟨hpatterns.1, hbodies.1, fun b hb => hlast b (List.dropLast_subset init hb)⟩, hlast, ?_, ?_⟩
  · exact hpatterns.2 a List.mem_cons_self
  · exact hbodies.2 a List.mem_cons_self

/-- The last part of a legible expression may be replaced where nothing else depends on it. -/
theorem Legible.replace_last {e e' b b' : Expr} (he : e.Legible) (init : List Expr)
    (hchildren : e.children = init ++ [b]) (hchildren' : e'.children = init ++ [b']) (hvalid : e'.validHere = e.validHere)
    (hends : e'.delimitedHere = e.delimitedHere) (hb : b.Legible → b'.Legible) : e'.Legible := by
  rw [legible_iff, hchildren, List.forall_mem_append] at he
  rw [legible_iff, hchildren', List.forall_mem_append, hvalid, hends]
  exact ⟨he.1, he.2.1, by simpa using hb (he.2.2 b List.mem_cons_self)⟩

/-- A legible expression may be made part of another one where it ends, if that one needs it not to be open. -/
theorem legible_atEnd {f : Expr → Expr} (others : List Expr) (hchildren : ∀ e, (f e).children = e :: others)
    (hothers : ∀ c ∈ others, c.Legible) (hvalid : ∀ e, (f e).validHere = true)
    (hends : ∀ e, (f e).delimitedHere = !e.isOpen) {e : Expr} (he : e.Legible) : (e.atEnd f).Legible := by
  have hf : ∀ e : Expr, e.Legible → e.isOpen = false → (f e).Legible := by
    intro e he hopen
    rw [legible_iff, hchildren, hends, hopen]
    exact ⟨⟨hvalid e, rfl⟩, List.forall_mem_cons.mpr ⟨he, hothers⟩⟩
  induction e with
  | lam param ascribed body ih => exact he.replace_last [] rfl rfl rfl rfl ih
  | letIn name ascribed value body _ ih => exact he.replace_last [value] rfl rfl rfl rfl ih
  | letRec name ascribed value body _ ih => exact he.replace_last [value] rfl rfl rfl rfl ih
  | ite c t e _ _ ih => exact he.replace_last [c, t] rfl rfl rfl rfl ih
  | range first last _ ih => exact he.replace_last [first] rfl rfl rfl rfl ih
  | matchOn scrutinee arms _ ih =>
      rw [atEnd]
      -- Only the last arm changes, and nothing is asked of what the last arm ends in.
      rcases List.eq_nil_or_concat arms with rfl | ⟨init, a, rfl⟩
      · exact hf _ he rfl
      · rw [List.concat_eq_append] at ih he ⊢
        rw [legible_matchOn_iff] at he
        obtain ⟨hinit, hends, hp, hbody⟩ := he.2.of_concat
        rw [if_neg (by simp), atEndArms_concat, legible_matchOn_iff]
        exact ⟨he.1, hinit.append (legibleArms_singleton hp (ih a (by simp) hbody)) hends⟩
  | _ => exact hf _ he rfl

theorem legible_addArms {more : List (Pattern × Expr)} (hmore : LegibleArms more) {e : Expr} (he : e.Legible) :
    (e.addArms more).Legible := by
  induction e with
  | lam param ascribed body ih => exact he.replace_last [] rfl rfl rfl rfl ih
  | letIn name ascribed value body _ ih => exact he.replace_last [value] rfl rfl rfl rfl ih
  | letRec name ascribed value body _ ih => exact he.replace_last [value] rfl rfl rfl rfl ih
  | ite c t e _ _ ih => exact he.replace_last [c, t] rfl rfl rfl rfl ih
  | range first last _ ih => exact he.replace_last [first] rfl rfl rfl rfl ih
  | matchOn scrutinee arms _ ih =>
      rw [addArms]
      rw [legible_matchOn_iff] at he ⊢
      refine ⟨he.1, ?_⟩
      rcases List.eq_nil_or_concat arms with rfl | ⟨init, a, rfl⟩
      · exact hmore
      · rw [List.concat_eq_append] at ih he ⊢
        obtain ⟨hinit, hends, hp, hbody⟩ := he.2.of_concat
        rw [joinArms_concat]
        refine hinit.append ?_ hends
        split
        next => exact legibleArms_singleton hp (ih a (by simp) hbody)
        next ha => exact (legibleArms_singleton hp hbody).append hmore (by simpa using ha)
  | _ => exact he

theorem legibleArms_nestArms {arms : List (Pattern × Expr)} (hpatterns : ∀ a ∈ arms, a.1.lexical = true)
    (hbodies : ∀ a ∈ arms, a.2.Legible) : LegibleArms (nestArms arms) := by
  induction arms with
  | nil => exact ⟨List.forall_mem_nil _, List.forall_mem_nil _, List.forall_mem_nil _⟩
  | cons a arms ih =>
      rw [List.forall_mem_cons] at hpatterns hbodies
      have hrest := ih hpatterns.2 hbodies.2
      have hfirst : LegibleArms [a] := legibleArms_singleton hpatterns.1 hbodies.1
      rw [nestArms]
      split
      -- The arms after the first have gone into it, so that it is the last one now.
      next => exact legibleArms_singleton hpatterns.1 (legible_addArms hrest hbodies.1)
      next h =>
        cases arms with
        | nil => exact hfirst
        | cons b arms => exact hfirst.append hrest (by simpa using h)

theorem legible_applyTo {fn arg : Expr} (hfn : fn.Legible) (harg : arg.Legible) : (fn.applyTo arg).Legible := by
  rw [applyTo]
  split
  next name h =>
    rw [eq_of_bareName? h, legible_iff] at hfn
    exact legible_iff.mpr ⟨⟨hfn.1.1, rfl⟩, by simpa [children] using harg⟩
  next h => exact legible_iff.mpr ⟨⟨rfl, Option.isNone_iff_eq_none.mpr h⟩, by simpa [children] using ⟨hfn, harg⟩⟩

/-- A regrouped expression is delimited. -/
theorem legible_regrouped {e : Expr} (h : e.lexical = true) : e.regrouped.Legible := by
  induction e using induct_children with
  | step e ih =>
      obtain ⟨hvalid, hlexical⟩ := all_iff.mp h
      have hparts : ∀ c ∈ e.children, c.regrouped.Legible := fun c hc => ih c hc (hlexical c hc)
      cases e with
      | app fn arg => exact legible_applyTo (hparts fn (by simp [children])) (hparts arg (by simp [children]))
      | proj e index =>
          exact legible_atEnd [] (fun _ => rfl) (List.forall_mem_nil _) (fun _ => rfl) (fun _ => rfl)
            (hparts e (by simp [children]))
      | access e field =>
          exact legible_atEnd (f := (.access · field)) [] (fun _ => rfl) (List.forall_mem_nil _) (fun _ => hvalid)
            (fun _ => rfl) (hparts e (by simp [children]))
      | range first last =>
          exact legible_atEnd [last.regrouped] (fun _ => rfl) (by simpa using hparts last (by simp [children]))
            (fun _ => rfl) (fun _ => rfl) (hparts first (by simp [children]))
      | matchOn scrutinee arms =>
          have hbodies : ∀ a ∈ arms, a.2.regrouped.Legible := fun a ha =>
            hparts a.2 (List.mem_cons_of_mem _ (List.mem_map_of_mem ha))
          rw [validHere, List.all_eq_true] at hvalid
          rw [regrouped, legible_matchOn_iff, regroupedArms_eq]
          refine ⟨hparts scrutinee List.mem_cons_self, legibleArms_nestArms ?_ ?_⟩
          · exact List.forall_mem_map.mpr hvalid
          · exact List.forall_mem_map.mpr hbodies
      | construct name args =>
          rw [regrouped, regroupedList_eq]
          exact legible_iff.mpr ⟨⟨hvalid, rfl⟩, List.forall_mem_map.mpr hparts⟩
      | tuple elems =>
          rw [regrouped, regroupedList_eq]
          refine legible_iff.mpr ⟨⟨?_, rfl⟩, ?_⟩
          · rwa [validHere, List.length_map]
          · exact List.forall_mem_map.mpr hparts
      | record fields =>
          rw [regrouped, regroupedFields_eq]
          refine legible_iff.mpr ⟨⟨?_, rfl⟩, ?_⟩
          · rwa [validHere, List.all_map]
          · rw [children, List.map_map]
            exact List.forall_mem_map.mpr fun f hf => hparts f.2 (List.mem_map_of_mem hf)
      | lit l => exact legible_iff.mpr ⟨⟨rfl, rfl⟩, List.forall_mem_nil _⟩
      | var name => exact legible_iff.mpr ⟨⟨hvalid, rfl⟩, List.forall_mem_nil _⟩
      | _ => exact legible_iff.mpr ⟨⟨hvalid, rfl⟩, by simpa [regrouped, children] using hparts⟩

theorem atEnd_of_not_isOpen {e : Expr} (h : e.isOpen = false) (f : Expr → Expr) : e.atEnd f = f e := by
  cases e with
  | matchOn scrutinee arms =>
      rw [atEnd, if_pos (by simpa [isOpen] using h)]
  | _ => first | rfl | cases h

theorem nestArms_eq_self {arms : List (Pattern × Expr)} (h : ∀ a ∈ arms.dropLast, a.2.endsInMatch = false) :
    nestArms arms = arms := by
  induction arms with
  | nil => rfl
  | cons a arms ih =>
      cases arms with
      | nil => simp [nestArms]
      | cons b arms =>
          rw [List.dropLast_cons_cons, List.forall_mem_cons] at h
          rw [nestArms, ih h.2, h.1]
          rfl

/-- A delimited expression is not regrouped. -/
theorem regrouped_eq_self {e : Expr} (h : e.delimited = true) : e.regrouped = e := by
  induction e using induct_children with
  | step e ih =>
      obtain ⟨hends, hdelimited⟩ := all_iff.mp h
      have hparts : ∀ c ∈ e.children, c.regrouped = c := fun c hc => ih c hc (hdelimited c hc)
      cases e with
      | app fn arg =>
          rw [regrouped, hparts fn (by simp [children]), hparts arg (by simp [children]), applyTo,
            Option.isNone_iff_eq_none.mp hends]
      | construct name args =>
          have hmap : args.map regrouped = args := (List.map_congr_left hparts).trans args.map_id'
          rw [regrouped, regroupedList_eq, hmap]
      | tuple elems =>
          have hmap : elems.map regrouped = elems := (List.map_congr_left hparts).trans elems.map_id'
          rw [regrouped, regroupedList_eq, hmap]
      | proj e index =>
          rw [regrouped, hparts e (by simp [children]), atEnd_of_not_isOpen ((Bool.not_eq_true' _).mp hends)]
      | record fields =>
          have hmap : fields.map (fun f => (f.1, f.2.regrouped)) = fields :=
            (List.map_congr_left fun f hf => by rw [hparts f.2 (List.mem_map_of_mem hf)]).trans fields.map_id'
          rw [regrouped, regroupedFields_eq, hmap]
      | access e field =>
          rw [regrouped, hparts e (by simp [children]), atEnd_of_not_isOpen ((Bool.not_eq_true' _).mp hends)]
      | range first last =>
          rw [regrouped, hparts first (by simp [children]), hparts last (by simp [children]),
            atEnd_of_not_isOpen ((Bool.not_eq_true' _).mp hends)]
      | matchOn scrutinee arms =>
          have hmap : arms.map (fun a => (a.1, a.2.regrouped)) = arms :=
            (List.map_congr_left fun a ha => by
              rw [hparts a.2 (List.mem_cons_of_mem _ (List.mem_map_of_mem ha))]).trans arms.map_id'
          have hlast : ∀ a ∈ arms.dropLast, a.2.endsInMatch = false := fun a ha =>
            (Bool.not_eq_true' _).mp (List.all_eq_true.mp hends a ha)
          rw [regrouped, regroupedArms_eq, hmap, nestArms_eq_self hlast, hparts scrutinee List.mem_cons_self]
      | _ => simp_all [regrouped, children]

/-! ## Same text -/

/-- **Two expressions have the same text exactly if they are regrouped alike.**  So delimited expressions are
determined by their texts. -/
theorem render_eq_iff_regrouped {e e' : Expr} (he : e.lexical = true) (he' : e'.lexical = true) :
    (e.render = e'.render ↔ e.regrouped = e'.regrouped) ∧
      (e.delimited = true → e'.delimited = true → (e.render = e'.render ↔ e = e')) := by
  have hiff : e.render = e'.render ↔ e.regrouped = e'.regrouped := by
    refine ⟨fun h => ?_, fun h => ?_⟩
    · refine (legible_regrouped he).eq_of_render_eq (legible_regrouped he') ?_
      rw [render_regrouped, render_regrouped, h]
    · rw [← render_regrouped e, h, render_regrouped]
  refine ⟨hiff, fun hd hd' => ?_⟩
  rwa [regrouped_eq_self hd, regrouped_eq_self hd'] at hiff

/-- A recursive definition for a range of selections. -/
def spread (ascribed : TypeExpr) : Expr :=
  .letRec "f" (some ascribed) (.construct "Pair" [.lit (.int (-1)), .lit (.char '.')])
    (.range (.proj (.matchOn (.var "f") []) 0) (.app (.var "f") (.tuple [])))

/-- A function of functions. -/
def consumerType : TypeExpr := .arrow (.arrow (.con "Int" []) (.var "a")) (.tuple [])

/-- The same with the arrows nested to the other side. -/
def producerType : TypeExpr := .arrow (.con "Int" []) (.arrow (.var "a") (.tuple []))

theorem render_eq_iff_regrouped_spread :
    (spread consumerType).lexical = true ∧ (spread producerType).lexical = true ∧
      (spread consumerType).delimited = true ∧ (spread producerType).delimited = true ∧
      (spread consumerType).render ≠ (spread producerType).render := by
  refine ⟨by decide, by decide, by decide, by decide, fun h => ?_⟩
  have hsame : spread consumerType = spread producerType :=
    ((render_eq_iff_regrouped (by decide) (by decide)).2 (by decide) (by decide)).mp h
  simp [spread, consumerType, producerType] at hsame

/-- Both expressions have valid names and the same text, but they are not the same. -/
def Clash (e e' : Expr) : Prop := e.lexical = true ∧ e'.lexical = true ∧ e.render = e'.render ∧ e ≠ e'

/-- A constructor that is applied looks like a constructor with an argument, a selection from a function like one
from its body, and an arm after a match like an arm of that match. -/
theorem render_clashes :
    Clash (.app (.construct "Some" []) (.var "x")) (.construct "Some" [.var "x"]) ∧
      Clash (.access (.lam "x" none (.var "x")) "f") (.lam "x" none (.access (.var "x") "f")) ∧
      Clash
        (.matchOn (.var "a") [(.var "p", .matchOn (.var "b") [(.var "q", .var "x")]), (.var "r", .var "y")])
        (.matchOn (.var "a") [(.var "p", .matchOn (.var "b") [(.var "q", .var "x"), (.var "r", .var "y")])]) := by
  refine ⟨⟨by decide, by decide, by decide, by simp⟩, ⟨by decide, by decide, by decide, by simp⟩, ?_⟩
  exact ⟨by decide, by decide, by decide, by simp⟩

end Expr

end Polytype
