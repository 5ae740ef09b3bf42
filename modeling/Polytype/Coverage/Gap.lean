/-
# Polytype.Coverage.Gap — descriptions of the values that a match leaves out.

A gap describes a set of values: all of them, one truth value, the integers other than those that
the arms list, or the values of a constructor whose arguments are described in turn.  A constructor
without described arguments stands for every value that it builds, however many arguments it takes.
-/
import Std.Data.ExtTreeSet
import Polytype.Surface.Pattern

namespace Polytype

open Text

/-- A description of values that no arm accepts. -/
inductive Gap where
  | anything
  | bool (b : Bool)
  | otherIntegers (listed : Std.ExtTreeSet Int)
  | con (name : String) (args : List Gap)
  deriving Inhabited

namespace Gap

/-- Induction on gaps, with the hypothesis for every described argument. -/
@[induction_eliminator]
theorem induct {motive : Gap → Prop}
    (anything : motive .anything)
    (bool : ∀ b, motive (.bool b))
    (otherIntegers : ∀ listed, motive (.otherIntegers listed))
    (con : ∀ name args, (∀ g ∈ args, motive g) → motive (.con name args))
    (g : Gap) : motive g :=
  @Gap.rec motive (fun gs => ∀ g ∈ gs, motive g) anything bool otherIntegers con
    (by simp) (fun _ _ hg hgs => List.forall_mem_cons.2 ⟨hg, hgs⟩) g

/-- A description inside another one is in parentheses when it has a blank in it. -/
def nested (text : String) : String := parensIf (text.toList.contains ' ') text

mutual
/-- The text of a gap. -/
def render : Gap → String
  | .anything => "_"
  | .bool b => boolWord b
  | .otherIntegers _ => "<other integers>"
  | .con name args => name ++ renderArgs args
/-- The arguments of a constructor, each after a blank. -/
def renderArgs : List Gap → String
  | [] => ""
  | g :: gs => " " ++ nested (render g) ++ renderArgs gs
end

/-- The values of a constructor with `arity` arguments, nothing being said about the arguments. -/
def anyArgs (name : String) (arity : Nat) : Gap := .con name (List.replicate arity .anything)

/-- The values of a constructor with `arity` arguments whose argument `i` is described by `g`. -/
def atArg (name : String) (arity i : Nat) (g : Gap) : Gap :=
  .con name ((List.replicate arity .anything).set i g)

end Gap

end Polytype
