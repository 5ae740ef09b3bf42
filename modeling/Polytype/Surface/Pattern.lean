/-
# Polytype.Surface.Pattern — the patterns of match arms.

A pattern that is a wildcard or a variable accepts every value (`Pattern.isIrrefutable`); a
constructor pattern that stands inside another one is in parentheses when it has arguments.  Record
fields stand in ascending order of their labels.
-/
import Polytype.Text

namespace Polytype

open Text

/-- A pattern: what a value has to look like, and names for its parts. -/
inductive Pattern where
  | wildcard
  | var (name : String)
  | int (n : Int)
  | bool (b : Bool)
  | con (name : String) (args : List Pattern)
  | tuple (elems : List Pattern)
  | record (fields : List (String × Pattern))
  deriving Inhabited

/-- The word for a truth value. -/
def boolWord (b : Bool) : String := if b then "true" else "false"

namespace Pattern

/-- Induction on patterns, with the hypothesis for every member of a list of components. -/
@[induction_eliminator]
theorem induct {motive : Pattern → Prop}
    (wildcard : motive .wildcard)
    (var : ∀ name, motive (.var name))
    (int : ∀ n, motive (.int n))
    (bool : ∀ b, motive (.bool b))
    (con : ∀ name args, (∀ p ∈ args, motive p) → motive (.con name args))
    (tuple : ∀ elems, (∀ p ∈ elems, motive p) → motive (.tuple elems))
    (record : ∀ fields, (∀ f ∈ fields, motive f.2) → motive (.record fields))
    (p : Pattern) : motive p :=
  @Pattern.rec motive (fun ps => ∀ p ∈ ps, motive p) (fun fs => ∀ f ∈ fs, motive f.2)
    (fun f => motive f.2) wildcard var int bool con tuple record
    (by simp) (fun _ _ hp hps => List.forall_mem_cons.2 ⟨hp, hps⟩)
    (by simp) (fun _ _ hf hfs => List.forall_mem_cons.2 ⟨hf, hfs⟩)
    (fun _ _ hp => hp) p

/-- Whether the pattern accepts every value at once. -/
def isIrrefutable : Pattern → Bool
  | .wildcard => true
  | .var _ => true
  | _ => false

mutual
/-- The number of nodes of a pattern. -/
def size : Pattern → Nat
  | .wildcard => 1
  | .var _ => 1
  | .int _ => 1
  | .bool _ => 1
  | .con _ args => sizeList args + 1
  | .tuple elems => sizeList elems + 1
  | .record fields => sizeFields fields + 1
/-- The number of nodes of a list of patterns. -/
def sizeList : List Pattern → Nat
  | [] => 0
  | p :: ps => p.size + sizeList ps
/-- The number of nodes of labelled patterns. -/
def sizeFields : List (String × Pattern) → Nat
  | [] => 0
  | (_, p) :: fs => p.size + sizeFields fs
end

theorem size_pos (p : Pattern) : 0 < p.size := by
  cases p <;> simp [size]

theorem size_le_sizeList {p : Pattern} {ps : List Pattern} (h : p ∈ ps) :
    p.size ≤ sizeList ps := by
  induction ps with
  | nil => simp at h
  | cons q ps ih =>
    rcases List.mem_cons.1 h with rfl | h
    · simp [sizeList]
    · have := ih h
      simp only [sizeList]
      omega

/-- Whether the pattern is in parentheses as an argument of a constructor. -/
def isCompound : Pattern → Bool
  | .con _ args => !args.isEmpty
  | _ => false

mutual
/-- The text of a pattern. -/
def render : Pattern → String
  | .wildcard => "_"
  | .var name => name
  | .int n => toString n
  | .bool b => boolWord b
  | .con name args => name ++ renderArgs args
  | .tuple elems => "(" ++ commas (renderList elems) ++ ")"
  | .record fields => "\x7b " ++ commas (renderFields fields) ++ " \x7d"
/-- The texts of a list of patterns. -/
def renderList : List Pattern → List String
  | [] => []
  | p :: ps => render p :: renderList ps
/-- The texts of labelled patterns, each after its label and a colon. -/
def renderFields : List (String × Pattern) → List String
  | [] => []
  | (l, p) :: fs => (l ++ ": " ++ render p) :: renderFields fs
/-- The arguments of a constructor, each after a blank. -/
def renderArgs : List Pattern → String
  | [] => ""
  | p :: ps => " " ++ parensIf p.isCompound (render p) ++ renderArgs ps
end

end Pattern

end Polytype
