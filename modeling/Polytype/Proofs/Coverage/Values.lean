/-
# Polytype.Proofs.Coverage.Values — the values that a match is about.

What a match leaves out is a question about values: which values have the type of the scrutinee, which of
them a pattern accepts, and which of them a gap describes.  These are the three relations of this file.

Functions are left open: a value of a function type is any member of a type `F` that is said to have
this type.  No pattern looks inside a function, so nothing depends on what `F` is.
-/
import Polytype.Coverage.Gap
import Polytype.Proofs.Typing.Rules

namespace Polytype

/-- A value; functions are members of `F`. -/
inductive Value (F : Type) where
  | int (n : Int)
  | bool (b : Bool)
  | char (ch : Char)
  | range (first last : Int)
  | fn (f : F)
  | tuple (elems : List (Value F))
  | record (fields : List (String × Value F))
  | con (name : String) (args : List (Value F))

variable {F : Type}

/-! ## Types of values -/

mutual
/-- The value has the type, where `isFn` says which functions there are between two types. -/
inductive ValueType (r : Registry) (isFn : F → Ty → Ty → Prop) : Value F → Ty → Prop
  | int (n : Int) : ValueType r isFn (.int n) .int
  | bool (b : Bool) : ValueType r isFn (.bool b) .bool
  | char (ch : Char) : ValueType r isFn (.char ch) .char
  | range (first last : Int) : ValueType r isFn (.range first last) .range
  | fn {f : F} {a b : Ty} : isFn f a b → ValueType r isFn (.fn f) (.fn a b)
  | tuple {vs : List (Value F)} {ts : List Ty} :
      ValueTypes r isFn vs ts → ValueType r isFn (.tuple vs) (.tuple ts)
  | record {fields : List (String × Value F)} {ts : List Ty} :
      ValueTypes r isFn (fields.map Prod.snd) ts →
      ValueType r isFn (.record fields) (.record ((fields.map Prod.fst).zip ts))
  | con {name : String} {c : ConstructorInfo} {vs : List (Value F)} {ts : List Ty} :
      r.constructors[name]? = some c → ts.length = c.typeParams.length →
      ValueTypes r isFn vs (c.fieldsAt ts) → ValueType r isFn (.con name vs) (.sum c.typeName ts)
/-- Values and as many types. -/
inductive ValueTypes (r : Registry) (isFn : F → Ty → Ty → Prop) : List (Value F) → List Ty → Prop
  | nil : ValueTypes r isFn [] []
  | cons {v : Value F} {vs : List (Value F)} {t : Ty} {ts : List Ty} :
      ValueType r isFn v t → ValueTypes r isFn vs ts → ValueTypes r isFn (v :: vs) (t :: ts)
end

/-! ## Patterns on values -/

mutual
/-- The pattern accepts the value. -/
inductive Pattern.Accepts : Pattern → Value F → Prop
  | wildcard (v : Value F) : Accepts .wildcard v
  | var (name : String) (v : Value F) : Accepts (.var name) v
  | int (n : Int) : Accepts (.int n) (.int n)
  | bool (b : Bool) : Accepts (.bool b) (.bool b)
  | con {name : String} {args : List Pattern} {vs : List (Value F)} :
      AcceptAll args vs → Accepts (.con name args) (.con name vs)
  | tuple {elems : List Pattern} {vs : List (Value F)} :
      AcceptAll elems vs → Accepts (.tuple elems) (.tuple vs)
  /-- The pattern says nothing about the fields that it leaves out. -/
  | record {fields : List (String × Pattern)} {known : List (String × Value F)} {vs : List (Value F)} :
      (∀ g ∈ (fields.map Prod.fst).zip vs, g ∈ known) → AcceptAll (fields.map Prod.snd) vs →
      Accepts (.record fields) (.record known)
/-- The patterns accept the values, one by one. -/
inductive Pattern.AcceptAll : List Pattern → List (Value F) → Prop
  | nil : AcceptAll [] []
  | cons {p : Pattern} {ps : List Pattern} {v : Value F} {vs : List (Value F)} :
      Accepts p v → AcceptAll ps vs → AcceptAll (p :: ps) (v :: vs)
end

/-! ## Gaps on values -/

mutual
/-- The gap describes the value. -/
inductive Gap.Describes : Gap → Value F → Prop
  | anything (v : Value F) : Describes .anything v
  | bool (b : Bool) : Describes (.bool b) (.bool b)
  | otherIntegers {listed : Std.ExtTreeSet Int} {n : Int} :
      n ∉ listed → Describes (.otherIntegers listed) (.int n)
  /-- The bare name of a constructor stands for all that it builds. -/
  | bare (name : String) (vs : List (Value F)) : Describes (.con name []) (.con name vs)
  | con {name : String} {args : List Gap} {vs : List (Value F)} :
      DescribeAll args vs → Describes (.con name args) (.con name vs)
/-- The gaps describe the values, one by one. -/
inductive Gap.DescribeAll : List Gap → List (Value F) → Prop
  | nil : DescribeAll [] []
  | cons {g : Gap} {gs : List Gap} {v : Value F} {vs : List (Value F)} :
      Describes g v → DescribeAll gs vs → DescribeAll (g :: gs) (v :: vs)
end

end Polytype
