/-
# Polytype.Proofs.Typing.Rules — when an expression has a type.

This is the declarative system: what it means for an expression to have a type, not how a type is
found.  Types are guessed where inference draws a variable, schemes are instantiated at any types, and
nothing is threaded from one part of an expression to the next.

None of the rules is stated through the functions that inference runs.  An instance of a scheme is its
body under *some* substitution for the quantified variables (`Scheme.Instance`), a `let` quantifies the
variables that are not free in the environment (`Env.Generalizes`), a constructor is taken at a list of
types for its parameters (`ConstructorInfo.fieldsAt`), and an ascription is met when some choice of
types for its variables gives the type (`Ascribed`).

Lists of components have relations of their own, in the order of the lists.
-/
import Polytype.Env
import Polytype.Registry.Resolve
import Polytype.Surface.Expr

namespace Polytype

/-! ## Schemes -/

/-- The types that a scheme stands for. -/
def Scheme.Instance (σ : Scheme) (t : Ty) : Prop :=
  ∃ s : Subst, (∀ v ∈ s, v ∈ σ.quantified) ∧ t = s.apply σ.body

/-- A variable is free in an environment when some scheme mentions it without quantifying it. -/
def Env.Free (Γ : Env) (v : TyVar) : Prop :=
  ∃ (name : String) (σ : Scheme), Γ[name]? = some σ ∧ v ∈ σ.body.vars ∧ v ∉ σ.quantified

/-- The scheme that quantifies all variables of a type but those free in the environment. -/
structure Env.Generalizes (Γ : Env) (t : Ty) (σ : Scheme) : Prop where
  body_eq : σ.body = t
  mem_quantified : ∀ v, v ∈ σ.quantified ↔ v ∈ t.vars ∧ ¬ Γ.Free v

/-! ## Constructors -/

/-- The substitution of a list of types for the parameters `0`, `1`, … of a declared type. -/
def Subst.ofParams (ts : List Ty) : Subst :=
  .ofList (ts.zipIdx.map fun p => ((p.2 : TyVar), p.1))

/-- The types of the fields of a constructor when the parameters of its type are `ts`. -/
def ConstructorInfo.fieldsAt (c : ConstructorInfo) (ts : List Ty) : List Ty :=
  c.fields.map (Subst.ofParams ts).apply

/-! ## Type expressions -/

mutual
/-- What a type expression means once its variables stand for the types `ρ`. -/
inductive TypeExpr.Means (table : TypeTable) (ρ : String → Ty) : TypeExpr → Ty → Prop
  | prim (p : Prim) : Means table ρ (.con p.name []) (.prim p)
  | synonym {name : String} {t : Ty} :
      table.synonyms[name]? = some t → Means table ρ (.con name []) t
  | sum {name : String} {info : SumInfo} {args : List TypeExpr} {ts : List Ty} :
      table.sums[name]? = some info → args.length = info.params.length →
      MeanAll table ρ args ts → Means table ρ (.con name args) (.sum name ts)
  | var (name : String) : Means table ρ (.var name) (ρ name)
  | arrow {dom cod : TypeExpr} {a b : Ty} :
      Means table ρ dom a → Means table ρ cod b → Means table ρ (.arrow dom cod) (.fn a b)
  | tuple {elems : List TypeExpr} {ts : List Ty} :
      MeanAll table ρ elems ts → Means table ρ (.tuple elems) (.tuple ts)
  | record {fields : List (String × TypeExpr)} {ts : List Ty} :
      MeanAll table ρ (fields.map Prod.snd) ts →
      Means table ρ (.record fields) (.record ((fields.map Prod.fst).zip ts))
/-- The meanings of a list of type expressions. -/
inductive TypeExpr.MeanAll (table : TypeTable) (ρ : String → Ty) : List TypeExpr → List Ty → Prop
  | nil : MeanAll table ρ [] []
  | cons {e : TypeExpr} {es : List TypeExpr} {t : Ty} {ts : List Ty} :
      Means table ρ e t → MeanAll table ρ es ts → MeanAll table ρ (e :: es) (t :: ts)
end

/-- The type is one that the ascription allows, if there is an ascription. -/
def Ascribed (table : TypeTable) : Option TypeExpr → Ty → Prop
  | none, _ => True
  | some e, t => ∃ ρ : String → Ty, e.Means table ρ t

/-! ## Patterns -/

mutual
/-- The pattern accepts values of the type, and binds variables of the listed types. -/
inductive PatternType (r : Registry) : Pattern → Ty → List (String × Ty) → Prop
  | wildcard (t : Ty) : PatternType r .wildcard t []
  | var (name : String) (t : Ty) : PatternType r (.var name) t [(name, t)]
  | int (n : Int) : PatternType r (.int n) .int []
  | bool (b : Bool) : PatternType r (.bool b) .bool []
  | con {name : String} {c : ConstructorInfo} {args : List Pattern} {ts : List Ty}
      {bs : List (String × Ty)} :
      r.constructors[name]? = some c → ts.length = c.typeParams.length →
      PatternTypes r args (c.fieldsAt ts) bs →
      PatternType r (.con name args) (.sum c.typeName ts) bs
  | tuple {elems : List Pattern} {ts : List Ty} {bs : List (String × Ty)} :
      PatternTypes r elems ts bs → PatternType r (.tuple elems) (.tuple ts) bs
  /-- The pattern may leave out fields of the record. -/
  | record {fields : List (String × Pattern)} {known : List (String × Ty)} {ts : List Ty}
      {bs : List (String × Ty)} :
      (∀ g ∈ (fields.map Prod.fst).zip ts, g ∈ known) →
      PatternTypes r (fields.map Prod.snd) ts bs →
      PatternType r (.record fields) (.record known) bs
/-- Patterns at as many types; their variables are listed in order. -/
inductive PatternTypes (r : Registry) : List Pattern → List Ty → List (String × Ty) → Prop
  | nil : PatternTypes r [] [] []
  | cons {p : Pattern} {ps : List Pattern} {t : Ty} {ts : List Ty} {bs cs : List (String × Ty)} :
      PatternType r p t bs → PatternTypes r ps ts cs →
      PatternTypes r (p :: ps) (t :: ts) (bs ++ cs)
end

/-! ## Expressions -/

/-- The environment with variables of one type each, the later ones in front of the earlier ones. -/
def Env.withVars (Γ : Env) : List (String × Ty) → Env
  | [] => Γ
  | (name, t) :: bs => withVars (Γ.insert name (.mono t)) bs

mutual
/-- The expression has the type in the environment. -/
inductive HasType (r : Registry) : Env → Expr → Ty → Prop
  | int {Γ : Env} (n : Int) : HasType r Γ (.lit (.int n)) .int
  | bool {Γ : Env} (b : Bool) : HasType r Γ (.lit (.bool b)) .bool
  | char {Γ : Env} (c : Char) : HasType r Γ (.lit (.char c)) .char
  | var {Γ : Env} {name : String} {σ : Scheme} {t : Ty} :
      Γ[name]? = some σ → σ.Instance t → HasType r Γ (.var name) t
  | lam {Γ : Env} {param : String} {ascription : Option TypeExpr} {body : Expr} {a b : Ty} :
      Ascribed r.toTypeTable ascription a → HasType r (Γ.insert param (.mono a)) body b →
      HasType r Γ (.lam param ascription body) (.fn a b)
  | app {Γ : Env} {fn arg : Expr} {a b : Ty} :
      HasType r Γ fn (.fn a b) → HasType r Γ arg a → HasType r Γ (.app fn arg) b
  | letIn {Γ : Env} {name : String} {ascription : Option TypeExpr} {value body : Expr} {a b : Ty}
      {σ : Scheme} :
      HasType r Γ value a → Ascribed r.toTypeTable ascription a → Γ.Generalizes a σ →
      HasType r (Γ.insert name σ) body b → HasType r Γ (.letIn name ascription value body) b
  /-- Inside its own value the variable has one type only. -/
  | letRec {Γ : Env} {name : String} {ascription : Option TypeExpr} {value body : Expr} {a b : Ty}
      {σ : Scheme} :
      Ascribed r.toTypeTable ascription a → HasType r (Γ.insert name (.mono a)) value a →
      Γ.Generalizes a σ → HasType r (Γ.insert name σ) body b →
      HasType r Γ (.letRec name ascription value body) b
  | ite {Γ : Env} {cond thenBranch elseBranch : Expr} {t : Ty} :
      HasType r Γ cond .bool → HasType r Γ thenBranch t → HasType r Γ elseBranch t →
      HasType r Γ (.ite cond thenBranch elseBranch) t
  | arithmetic {Γ : Env} {op : String} {left right : Expr} :
      op ∈ ["+", "-", "*", "/"] → HasType r Γ left .int → HasType r Γ right .int →
      HasType r Γ (.binop op left right) .int
  | ordering {Γ : Env} {op : String} {left right : Expr} {t : Ty} :
      op ∈ ["<", "<=", ">", ">="] → t = .int ∨ t = .char →
      HasType r Γ left t → HasType r Γ right t → HasType r Γ (.binop op left right) .bool
  | equality {Γ : Env} {op : String} {left right : Expr} {t : Ty} :
      op ∈ ["==", "!="] → HasType r Γ left t → HasType r Γ right t →
      HasType r Γ (.binop op left right) .bool
  | construct {Γ : Env} {name : String} {c : ConstructorInfo} {args : List Expr} {ts : List Ty} :
      r.constructors[name]? = some c → ts.length = c.typeParams.length →
      HaveTypes r Γ args (c.fieldsAt ts) → HasType r Γ (.construct name args) (.sum c.typeName ts)
  | tuple {Γ : Env} {elems : List Expr} {ts : List Ty} :
      HaveTypes r Γ elems ts → HasType r Γ (.tuple elems) (.tuple ts)
  | proj {Γ : Env} {tuple : Expr} {index : Nat} {ts : List Ty} {t : Ty} :
      HasType r Γ tuple (.tuple ts) → ts[index]? = some t → HasType r Γ (.proj tuple index) t
  | record {Γ : Env} {fields : List (String × Expr)} {ts : List Ty} :
      HaveTypes r Γ (fields.map Prod.snd) ts →
      HasType r Γ (.record fields) (.record ((fields.map Prod.fst).zip ts))
  | access {Γ : Env} {record : Expr} {label : String} {fs : List (String × Ty)} {t : Ty} :
      HasType r Γ record (.record fs) → (label, t) ∈ fs → HasType r Γ (.access record label) t
  | range {Γ : Env} {first last : Expr} :
      HasType r Γ first .int → HasType r Γ last .int → HasType r Γ (.range first last) .range
  | matchOn {Γ : Env} {scrutinee : Expr} {arms : List (Pattern × Expr)} {a b : Ty} :
      HasType r Γ scrutinee a → ArmsHaveType r Γ a arms b →
      HasType r Γ (.matchOn scrutinee arms) b
/-- Expressions and as many types. -/
inductive HaveTypes (r : Registry) : Env → List Expr → List Ty → Prop
  | nil {Γ : Env} : HaveTypes r Γ [] []
  | cons {Γ : Env} {e : Expr} {es : List Expr} {t : Ty} {ts : List Ty} :
      HasType r Γ e t → HaveTypes r Γ es ts → HaveTypes r Γ (e :: es) (t :: ts)
/-- Arms that accept values of the first type and give values of the second.  The variables of a
pattern are in scope in its own arm only. -/
inductive ArmsHaveType (r : Registry) : Env → Ty → List (Pattern × Expr) → Ty → Prop
  | nil {Γ : Env} {a b : Ty} : ArmsHaveType r Γ a [] b
  | cons {Γ : Env} {p : Pattern} {e : Expr} {arms : List (Pattern × Expr)} {a b : Ty}
      {bs : List (String × Ty)} :
      PatternType r p a bs → HasType r (Γ.withVars bs) e b → ArmsHaveType r Γ a arms b →
      ArmsHaveType r Γ a ((p, e) :: arms) b
end

end Polytype
