/-
# Polytype.Proofs.Reading.Delimited — expressions whose texts show their structure.

Expressions are printed with parentheses around applications, operators and constructors with arguments only.
Functions, definitions, conditionals, ranges and matches have no mark at their end (`isOpen`), so what is printed
after them may as well belong to their last part.  An expression is `delimited` when nothing of this kind happens
in it.  Both this and the validity of names (`lexical`) are conditions on an expression and everything in it
(`all`), each of which looks at one expression and its parts at a time.
-/
import Polytype.Inference.Expr
import Polytype.Proofs.Reading.Pattern

namespace Polytype

open Reader Text

namespace Expr

/-! ## Conditions on expressions and their parts -/

/-- The expressions that the expression is made of. -/
def children : Expr → List Expr
  | .lit _ => []
  | .var _ => []
  | .lam _ _ body => [body]
  | .app fn arg => [fn, arg]
  | .letIn _ _ value body => [value, body]
  | .letRec _ _ value body => [value, body]
  | .ite c t e => [c, t, e]
  | .binop _ l r => [l, r]
  | .construct _ args => args
  | .tuple elems => elems
  | .proj e _ => [e]
  | .record fields => fields.map Prod.snd
  | .access e _ => [e]
  | .range first last => [first, last]
  | .matchOn scrutinee arms => scrutinee :: arms.map Prod.snd

/-- Induction on expressions, with the hypothesis for everything that the expression is made of. -/
theorem induct_children {motive : Expr → Prop} (step : ∀ e, (∀ c ∈ e.children, motive c) → motive e) (e : Expr) :
    motive e := by
  induction e with
  | construct name args ih => exact step _ ih
  | tuple elems ih => exact step _ ih
  | record fields ih => exact step _ (List.forall_mem_map.mpr ih)
  | matchOn scrutinee arms ihs iha => exact step _ (List.forall_mem_cons.mpr ⟨ihs, List.forall_mem_map.mpr iha⟩)
  | _ => exact step _ (by simp [children, *])

mutual
/-- Whether the condition holds of the expression and of everything in it. -/
def all (p : Expr → Bool) : Expr → Bool
  | .lit l => p (.lit l)
  | .var name => p (.var name)
  | .lam param ascribed body => p (.lam param ascribed body) && body.all p
  | .app fn arg => p (.app fn arg) && fn.all p && arg.all p
  | .letIn name ascribed value body => p (.letIn name ascribed value body) && value.all p && body.all p
  | .letRec name ascribed value body => p (.letRec name ascribed value body) && value.all p && body.all p
  | .ite c t e => p (.ite c t e) && c.all p && t.all p && e.all p
  | .binop op l r => p (.binop op l r) && l.all p && r.all p
  | .construct name args => p (.construct name args) && allList p args
  | .tuple elems => p (.tuple elems) && allList p elems
  | .proj e index => p (.proj e index) && e.all p
  | .record fields => p (.record fields) && allFields p fields
  | .access e field => p (.access e field) && e.all p
  | .range first last => p (.range first last) && first.all p && last.all p
  | .matchOn scrutinee arms => p (.matchOn scrutinee arms) && scrutinee.all p && allArms p arms
/-- Whether the condition holds in all expressions of a list. -/
def allList (p : Expr → Bool) : List Expr → Bool
  | [] => true
  | e :: es => e.all p && allList p es
/-- Whether the condition holds in all labelled expressions. -/
def allFields (p : Expr → Bool) : List (String × Expr) → Bool
  | [] => true
  | (_, e) :: fs => e.all p && allFields p fs
/-- Whether the condition holds in the bodies of all arms. -/
def allArms (p : Expr → Bool) : List (Pattern × Expr) → Bool
  | [] => true
  | (_, e) :: arms => e.all p && allArms p arms
end

theorem allList_iff {p : Expr → Bool} {es : List Expr} : allList p es = true ↔ ∀ e ∈ es, e.all p = true := by
  induction es with
  | nil => simp [allList]
  | cons e es ih => rw [allList, Bool.and_eq_true, ih, List.forall_mem_cons]

theorem allFields_iff {p : Expr → Bool} {fs : List (String × Expr)} :
    allFields p fs = true ↔ ∀ e ∈ fs.map Prod.snd, e.all p = true := by
  induction fs with
  | nil => simp [allFields]
  | cons f fs ih => rw [allFields, Bool.and_eq_true, ih, List.map_cons, List.forall_mem_cons]

theorem allArms_iff {p : Expr → Bool} {arms : List (Pattern × Expr)} :
    allArms p arms = true ↔ ∀ e ∈ arms.map Prod.snd, e.all p = true := by
  induction arms with
  | nil => simp [allArms]
  | cons a arms ih => rw [allArms, Bool.and_eq_true, ih, List.map_cons, List.forall_mem_cons]

theorem all_iff {p : Expr → Bool} {e : Expr} :
    e.all p = true ↔ p e = true ∧ ∀ c ∈ e.children, c.all p = true := by
  cases e <;> simp only [all, children, Bool.and_eq_true, allList_iff, allFields_iff, allArms_iff,
    List.forall_mem_cons, List.not_mem_nil, false_implies, implies_true, and_true, and_assoc]

/-- Whether the names that the expression itself writes down are valid, and it is no tuple of one component. -/
def validHere : Expr → Bool
  | .var name => Name.isVariable name
  | .lam param ascribed _ => Name.isVariable param && ascribed.all TypeExpr.lexical
  | .letIn name ascribed _ _ => Name.isVariable name && ascribed.all TypeExpr.lexical
  | .letRec name ascribed _ _ => Name.isVariable name && ascribed.all TypeExpr.lexical
  | .binop op _ _ => (operatorKind? op).isSome
  | .construct name _ => Name.isCapitalized name
  | .tuple elems => elems.length != 1
  | .record fields => fields.all fun f => Name.isVariable f.1
  | .access _ field => Name.isVariable field
  | .matchOn _ arms => arms.all fun a => a.1.lexical
  | _ => true

/-- Whether all names in the expression are valid, and no tuple has one component. -/
def lexical (e : Expr) : Bool := e.all validHere

/-- The name of a constructor without arguments. -/
def bareName? : Expr → Option String
  | .construct name [] => some name
  | _ => none

/-- Whether the expression ends with an expression of any form that is part of it. -/
def isOpen : Expr → Bool
  | .lam _ _ _ => true
  | .letIn _ _ _ _ => true
  | .letRec _ _ _ _ => true
  | .ite _ _ _ => true
  | .range _ _ => true
  | .matchOn _ arms => !arms.isEmpty
  | _ => false

/-- Whether another arm could be added at the end of the expression. -/
def endsInMatch : Expr → Bool
  | .lam _ _ body => body.endsInMatch
  | .letIn _ _ _ body => body.endsInMatch
  | .letRec _ _ _ body => body.endsInMatch
  | .ite _ _ e => e.endsInMatch
  | .range _ last => last.endsInMatch
  | .matchOn _ _ => true
  | _ => false

/-- Whether the end of each part of the expression shows: what is applied is not taken for a constructor with
arguments, what is selected from is not open, and no arm but the last could have another arm. -/
def delimitedHere : Expr → Bool
  | .app fn _ => fn.bareName?.isNone
  | .proj e _ => !e.isOpen
  | .access e _ => !e.isOpen
  | .range first _ => !first.isOpen
  | .matchOn _ arms => arms.dropLast.all fun a => !a.2.endsInMatch
  | _ => true

/-- Whether the end of every part of the expression shows. -/
def delimited (e : Expr) : Bool := e.all delimitedHere

/-! ## Texts of expressions -/

theorem renderList_eq (es : List Expr) : renderList es = es.map render := by
  induction es with
  | nil => rfl
  | cons e es ih => rw [renderList, ih, List.map_cons]

theorem renderFields_eq (fs : List (String × Expr)) :
    renderFields fs = fs.map fun f => f.1 ++ ": " ++ f.2.render := by
  induction fs with
  | nil => rfl
  | cons f fs ih => rw [renderFields, ih, List.map_cons]

theorem renderArgs_eq (es : List Expr) : renderArgs es = String.join (es.map fun e => " " ++ e.render) := by
  induction es with
  | nil => rfl
  | cons e es ih => rw [renderArgs, ih, List.map_cons, String.join_cons]

theorem renderArms_eq (arms : List (Pattern × Expr)) :
    renderArms arms = String.join (arms.map fun a => " | " ++ a.1.render ++ " -> " ++ a.2.render) := by
  induction arms with
  | nil => rfl
  | cons a arms ih => rw [renderArms, ih, List.map_cons, String.join_cons]

theorem render_construct_nil (name : String) : render (.construct name []) = name := String.append_empty

/-- The text of an expression begins an expression, if the texts of its parts do. -/
theorem opens_of_children {e : Expr} (hvalid : e.validHere = true) (hparts : ∀ c ∈ e.children, Opens c.render) :
    Opens e.render := by
  cases e with
  | lit l =>
      cases l with
      | int v => exact (spells_int v).opens
      | bool b => exact (spells_bool b).opens
      | char c => exact (Opens.append (fun rest => rfl) _).append _
  | var name => exact (spells_variable hvalid).opens
  | construct name args =>
      cases args with
      | nil =>
          rw [render_construct_nil]
          exact (spells_capitalized hvalid).opens
      | cons e es => exact (Opens.append (fun rest => rfl) _).append _
  | proj e index => exact ((hparts e List.mem_cons_self).append _).append _
  | access e field => exact ((hparts e List.mem_cons_self).append _).append _
  | range first last => exact ((hparts first List.mem_cons_self).append _).append _
  -- The other forms begin with a keyword or a bracket.
  | _ =>
      intro rest
      simp only [render, String.toList_append, List.append_assoc]
      rfl

end Expr

end Polytype
