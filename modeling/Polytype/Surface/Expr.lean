/-
# Polytype.Surface.Expr — the expressions of the language.

Constructors are applied to all their arguments at once; other functions take one argument at a time.
Operators are kept as they are written, also unknown ones.  Record fields stand in ascending order of
their labels.  A character literal holds a character and not a byte: the two are the same below 128, and
a byte from 128 on is no character by itself and has no literal here.
-/
import Polytype.Surface.Pattern
import Polytype.Surface.TypeExpr

namespace Polytype

open Text

/-- The values that are written down as such. -/
inductive Literal where
  | int (n : Int)
  | bool (b : Bool)
  | char (c : Char)
  deriving DecidableEq, Repr

/-- An expression.  An ascription, where there is one, is about the variable that is bound. -/
inductive Expr where
  | lit (l : Literal)
  | var (name : String)
  | lam (param : String) (ascribed : Option TypeExpr) (body : Expr)
  | app (fn arg : Expr)
  | letIn (name : String) (ascribed : Option TypeExpr) (value body : Expr)
  | letRec (name : String) (ascribed : Option TypeExpr) (value body : Expr)
  | ite (cond thenBranch elseBranch : Expr)
  | binop (op : String) (left right : Expr)
  | construct (name : String) (args : List Expr)
  | tuple (elems : List Expr)
  | proj (tuple : Expr) (index : Nat)
  | record (fields : List (String × Expr))
  | access (record : Expr) (field : String)
  | range (first last : Expr)
  | matchOn (scrutinee : Expr) (arms : List (Pattern × Expr))

/-- The text of a literal; a character stands between apostrophes as it is. -/
def Literal.render : Literal → String
  | .int n => toString n
  | .bool b => boolWord b
  | .char c => "'" ++ String.singleton c ++ "'"

namespace Expr

instance : Inhabited Expr := ⟨.lit (.bool false)⟩

/-- Induction on expressions, with the hypothesis for every member of a list of components. -/
@[induction_eliminator]
theorem induct {motive : Expr → Prop}
    (lit : ∀ l, motive (.lit l))
    (var : ∀ name, motive (.var name))
    (lam : ∀ param ascribed body, motive body → motive (.lam param ascribed body))
    (app : ∀ fn arg, motive fn → motive arg → motive (.app fn arg))
    (letIn : ∀ name ascribed value body,
      motive value → motive body → motive (.letIn name ascribed value body))
    (letRec : ∀ name ascribed value body,
      motive value → motive body → motive (.letRec name ascribed value body))
    (ite : ∀ c t e, motive c → motive t → motive e → motive (.ite c t e))
    (binop : ∀ op l r, motive l → motive r → motive (.binop op l r))
    (construct : ∀ name args, (∀ e ∈ args, motive e) → motive (.construct name args))
    (tuple : ∀ elems, (∀ e ∈ elems, motive e) → motive (.tuple elems))
    (proj : ∀ e index, motive e → motive (.proj e index))
    (record : ∀ fields, (∀ f ∈ fields, motive f.2) → motive (.record fields))
    (access : ∀ e field, motive e → motive (.access e field))
    (range : ∀ first last, motive first → motive last → motive (.range first last))
    (matchOn : ∀ scrutinee arms,
      motive scrutinee → (∀ a ∈ arms, motive a.2) → motive (.matchOn scrutinee arms))
    (e : Expr) : motive e :=
  @Expr.rec motive (fun es => ∀ e ∈ es, motive e) (fun fs => ∀ f ∈ fs, motive f.2)
    (fun as => ∀ a ∈ as, motive a.2) (fun f => motive f.2) (fun a => motive a.2)
    lit var lam app letIn letRec ite binop construct tuple proj record access range matchOn
    (by simp) (fun _ _ he hes => List.forall_mem_cons.2 ⟨he, hes⟩)
    (by simp) (fun _ _ hf hfs => List.forall_mem_cons.2 ⟨hf, hfs⟩)
    (by simp) (fun _ _ ha has => List.forall_mem_cons.2 ⟨ha, has⟩)
    (fun _ _ he => he) (fun _ _ he => he) e

/-- A function applied to several arguments in turn. -/
def apps (fn : Expr) (args : List Expr) : Expr := args.foldl .app fn

/-- The ascription of a bound variable, after a colon. -/
def renderAscribed : Option TypeExpr → String
  | some t => " : " ++ t.render
  | none => ""

/-- The parameter of a function, in parentheses when it is ascribed a type. -/
def renderParam (param : String) (ascribed : Option TypeExpr) : String :=
  parensIf ascribed.isSome (param ++ renderAscribed ascribed)

mutual
/-- The text of an expression. -/
def render : Expr → String
  | .lit l => l.render
  | .var name => name
  | .lam param ascribed body => "fun " ++ renderParam param ascribed ++ " -> " ++ render body
  | .app fn arg => "(" ++ render fn ++ " " ++ render arg ++ ")"
  | .letIn name ascribed value body =>
    "let " ++ name ++ renderAscribed ascribed ++ " = " ++ render value ++ " in " ++ render body
  | .letRec name ascribed value body =>
    "let rec " ++ name ++ renderAscribed ascribed ++ " = " ++ render value ++ " in " ++ render body
  | .ite c t e => "if " ++ render c ++ " then " ++ render t ++ " else " ++ render e
  | .binop op l r => "(" ++ render l ++ " " ++ op ++ " " ++ render r ++ ")"
  | .construct name args => parensIf (!args.isEmpty) (name ++ renderArgs args)
  | .tuple elems => "(" ++ commas (renderList elems) ++ ")"
  | .proj e index => render e ++ "." ++ toString index
  | .record fields => "\x7b " ++ commas (renderFields fields) ++ " \x7d"
  | .access e field => render e ++ "." ++ field
  | .range first last => render first ++ ".." ++ render last
  | .matchOn scrutinee arms => "match " ++ render scrutinee ++ " with" ++ renderArms arms
/-- The texts of a list of expressions. -/
def renderList : List Expr → List String
  | [] => []
  | e :: es => render e :: renderList es
/-- The texts of labelled expressions, each after its label and a colon. -/
def renderFields : List (String × Expr) → List String
  | [] => []
  | (l, e) :: fs => (l ++ ": " ++ render e) :: renderFields fs
/-- The arguments of a constructor, each after a blank. -/
def renderArgs : List Expr → String
  | [] => ""
  | e :: es => " " ++ render e ++ renderArgs es
/-- The arms of a match, each after a bar. -/
def renderArms : List (Pattern × Expr) → String
  | [] => ""
  | (p, e) :: arms => " | " ++ p.render ++ " -> " ++ render e ++ renderArms arms
end

end Expr

end Polytype
