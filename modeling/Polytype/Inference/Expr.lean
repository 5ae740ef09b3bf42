/-
# Polytype.Inference.Expr — the types of expressions.

Inference goes through an expression once, from left to right.  It gives a type and a substitution
that says what has been found out about the type variables of the environment; every step works under
the substitutions of the steps before it.

A `let` generalizes the type of its value for the body; a `let rec` has one type for its variable
inside the value and generalizes it only for the body.  Ordering compares integers or characters, and
integers where the operands are not known to be either.  Projections and field accesses need to know
their tuple or record by the time they are reached.
-/
import Polytype.Coverage
import Polytype.Env
import Polytype.Inference.Pattern
import Polytype.Surface.Expr

namespace Polytype

/-- The three kinds of operators. -/
inductive OperatorKind where
  | arithmetic
  | ordering
  | equality
  deriving DecidableEq, Repr

/-- The kind of an operator, if it is known. -/
def operatorKind? (op : String) : Option OperatorKind :=
  if op ∈ ["+", "-", "*", "/"] then some .arithmetic
  else if op ∈ ["<", "<=", ">", ">="] then some .ordering
  else if op ∈ ["==", "!="] then some .equality
  else none

/-- The type of a literal. -/
def Literal.type : Literal → Ty
  | .int _ => .int
  | .bool _ => .bool
  | .char _ => .char

/-- The outcome of typing an expression. -/
structure Typing where
  subst : Subst
  type : Ty

/-- What inference reads but never changes. -/
structure InferContext where
  registry : Registry := {}
  checkCoverage : Bool := true

namespace Infer

/-- What the type of the operands has to become for an operator. -/
def operands (kind : OperatorKind) (left right : Ty) : Except TypeError Subst := do
  match kind with
  | .arithmetic =>
    let s₁ ← unify left .int
    let s₂ ← unify (s₁.apply right) .int
    return s₂.comp s₁
  | .equality => unify left right
  | .ordering =>
    let s ← unify left right
    match s.apply left with
    | .var v => return (← unify (.var v) .int).comp s
    | .int => return s
    | .char => return s
    | t => (Fault.mismatch t .int).raise

/-- The type of the values that an operator gives. -/
def resultType : OperatorKind → Ty
  | .arithmetic => .int
  | .ordering => .bool
  | .equality => .bool

/-- The component of a tuple type. -/
def component (t : Ty) (index : Nat) : Except TypeError Ty :=
  match t with
  | .tuple elems =>
    match elems[index]? with
    | some elem => .ok elem
    | none => (Fault.tupleIndexOutOfRange index elems.length).raise
  | _ => (Fault.tupleExpected t).raise

/-- The field of a record type. -/
def field (t : Ty) (label : String) : Except TypeError Ty :=
  match t with
  | .record fields =>
    match fields.lookup label with
    | some fieldType => .ok fieldType
    | none =>
      let labels := Fields.labels fields
      .error ⟨.fieldNotFound label labels, Name.nearest? label labels⟩
  | _ => (Fault.recordExpected t).raise

/-- Brings an expression to the type that it is ascribed, if it is ascribed one. -/
def ascribe (r : Registry) (ascription : Option TypeExpr) (value : Typing) : Infer Typing :=
  match ascription with
  | none => return value
  | some t => do
    let t ← ascribed r t
    let s ← unify value.type t
    return ⟨s.comp value.subst, s.apply value.type⟩

/-- Warns about a match whose arms leave something out. -/
def coverage (c : InferContext) (ps : List Pattern) : Infer Unit := do
  if c.checkCoverage then
    let missing ← Coverage.missingCases c.registry ps
    unless missing.isEmpty do
      warn (.nonExhaustiveMatch missing)

mutual
/-- Types an expression in an environment. -/
def expr (c : InferContext) (Γ : Env) : Expr → Infer Typing
  | .lit l => return ⟨∅, l.type⟩
  | .var name => do
    let σ ← Γ.lookup name
    return ⟨∅, ← instantiate σ⟩
  | .lam param ascription body => do
    let dom ← ascribedOrFresh c.registry ascription
    let cod ← expr c (Γ.bindTy param dom) body
    return ⟨cod.subst, .fn (cod.subst.apply dom) cod.type⟩
  | .app fn arg => do
    let fn ← expr c Γ fn
    let arg ← expr c (Γ.apply fn.subst) arg
    let result ← fresh
    let s ← unify (arg.subst.apply fn.type) (.fn arg.type result)
    return ⟨(s.comp arg.subst).comp fn.subst, s.apply result⟩
  | .letIn name ascription value body => do
    let value ← expr c Γ value
    let value ← ascribe c.registry ascription value
    let Δ := Γ.apply value.subst
    let body ← expr c (Δ.insert name (Δ.generalize value.type)) body
    return ⟨body.subst.comp value.subst, body.type⟩
  | .letRec name ascription value body => do
    let self ← ascribedOrFresh c.registry ascription
    let value ← expr c (Γ.bindTy name self) value
    let s ← unify (value.subst.apply self) value.type
    let subst := s.comp value.subst
    let Δ := Γ.apply subst
    let body ← expr c (Δ.insert name (Δ.generalize (s.apply value.type))) body
    return ⟨body.subst.comp subst, body.type⟩
  | .ite cond thenBranch elseBranch => do
    let cond ← expr c Γ cond
    let s₁ ← unify cond.type .bool
    let subst := s₁.comp cond.subst
    let thenBranch ← expr c (Γ.apply subst) thenBranch
    let subst := thenBranch.subst.comp subst
    let elseBranch ← expr c (Γ.apply subst) elseBranch
    let subst := elseBranch.subst.comp subst
    let s₂ ← unify (elseBranch.subst.apply thenBranch.type) elseBranch.type
    return ⟨s₂.comp subst, s₂.apply elseBranch.type⟩
  | .binop op left right => do
    match operatorKind? op with
    | none => (Fault.unknownOperator op).raise
    | some kind =>
      let left ← expr c Γ left
      let right ← expr c (Γ.apply left.subst) right
      let s ← operands kind (right.subst.apply left.type) right.type
      return ⟨s.comp (right.subst.comp left.subst), resultType kind⟩
  | .construct name args => do
    let con ← saturated c.registry name args.length
    let s ← exprArgs c Γ args con.fields ∅
    return ⟨s, s.apply con.result⟩
  | .tuple elems => do
    let (s, types) ← exprList c Γ elems ∅
    return ⟨s, .tuple (types.map s.apply)⟩
  | .proj tuple index => do
    let tuple ← expr c Γ tuple
    return ⟨tuple.subst, ← component (tuple.subst.apply tuple.type) index⟩
  | .record fields => do
    let (s, types) ← exprFields c Γ fields ∅
    return ⟨s, .record (types.map fun f => (f.1, s.apply f.2))⟩
  | .access record label => do
    let record ← expr c Γ record
    return ⟨record.subst, ← field (record.subst.apply record.type) label⟩
  | .range first last => do
    let first ← expr c Γ first
    let s₁ ← unify first.type .int
    let subst := s₁.comp first.subst
    let last ← expr c (Γ.apply subst) last
    let subst := last.subst.comp subst
    let s₂ ← unify last.type .int
    return ⟨s₂.comp subst, .range⟩
  | .matchOn scrutinee arms => do
    let scrutinee ← expr c Γ scrutinee
    let result ← fresh
    let s ← exprArms c Γ scrutinee.type result arms scrutinee.subst
    coverage c (arms.map Prod.fst)
    return ⟨s, s.apply result⟩
/-- Types the arguments of a constructor against its fields, of which there are as many. -/
def exprArgs (c : InferContext) (Γ : Env) : List Expr → List Ty → Subst → Infer Subst
  | e :: es, t :: ts, s => do
    let arg ← expr c (Γ.apply s) e
    let s := arg.subst.comp s
    let u ← unify (s.apply t) arg.type
    exprArgs c Γ es ts (u.comp s)
  | _, _, s => return s
/-- Types expressions one after the other. -/
def exprList (c : InferContext) (Γ : Env) : List Expr → Subst → Infer (Subst × List Ty)
  | [], s => return (s, [])
  | e :: es, s => do
    let elem ← expr c (Γ.apply s) e
    let (s, types) ← exprList c Γ es (elem.subst.comp s)
    return (s, elem.type :: types)
/-- Types labelled expressions one after the other. -/
def exprFields (c : InferContext) (Γ : Env) :
    List (String × Expr) → Subst → Infer (Subst × List (String × Ty))
  | [], s => return (s, [])
  | (l, e) :: fs, s => do
    let elem ← expr c (Γ.apply s) e
    let (s, types) ← exprFields c Γ fs (elem.subst.comp s)
    return (s, (l, elem.type) :: types)
/-- Types the arms of a match: each pattern against the type of the scrutinee, each body against the
type of the result. -/
def exprArms (c : InferContext) (Γ : Env) (scrutinee result : Ty) :
    List (Pattern × Expr) → Subst → Infer Subst
  | [], s => return s
  | (p, e) :: arms, s => do
    let p ← pattern c.registry p (s.apply scrutinee)
    let s := p.subst.comp s
    let bindings := p.bindings.map fun b => (b.1, s.apply b.2)
    let body ← expr c ((Γ.apply s).bindAll bindings) e
    let s := body.subst.comp s
    let u ← unify (s.apply result) body.type
    exprArms c Γ scrutinee result arms (u.comp s)
end

end Infer

end Polytype
