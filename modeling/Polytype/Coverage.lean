/-
# Polytype.Coverage — which values the arms of a match leave out.

The check goes by the patterns alone and errs on the side of reporting a gap.  An irrefutable arm
covers everything; otherwise the first arm says what kind of value is matched.  Integers are never
covered by literals, and tuples and records only by an irrefutable arm.  For a sum type the missing
constructors are reported first, and then, constructor by constructor, what the arms for it leave
out (`constructorGaps`): a constructor is covered as soon as one of its fields is covered by the rows
that test this field only.  A row that tests several fields at once counts for none of them.

The recursion is on the patterns that stand in one field, which together are smaller than the
patterns they come from (`sizeList_column_lt`).
-/
import Polytype.Coverage.Gap
import Polytype.Registry

namespace Polytype

namespace Coverage

/-! ## Rows and columns -/

/-- The arguments of a pattern for the constructor `c`. -/
def rowOf? (c : String) : Pattern → Option (List Pattern)
  | .con d args => if d = c then some args else none
  | _ => none

/-- The arguments of all patterns for the constructor `c`. -/
def rowsOf (c : String) (ps : List Pattern) : List (List Pattern) := ps.filterMap (rowOf? c)

/-- The patterns of a row that can fail, with their positions. -/
def tests (row : List Pattern) : List (Pattern × Nat) :=
  row.zipIdx.filter fun t => !t.1.isIrrefutable

/-- The pattern at position `i` of a row, if it is the only one in the row that can fail. -/
def soleTest? (i : Nat) (row : List Pattern) : Option Pattern :=
  match tests row with
  | [(p, j)] => if j = i then some p else none
  | _ => none

/-- The patterns at position `i` of the rows for `c` that test this position only. -/
def column (c : String) (i : Nat) (ps : List Pattern) : List Pattern :=
  (rowsOf c ps).filterMap (soleTest? i)

theorem soleTest?_mem {i : Nat} {row : List Pattern} {p : Pattern}
    (h : soleTest? i row = some p) : p ∈ row := by
  unfold soleTest? at h
  split at h
  · next q j heq =>
    have hq : (q, j) ∈ tests row := by simp [heq]
    have : (q, j) ∈ row.zipIdx := (List.mem_filter.1 hq).1
    split at h
    · cases h
      exact List.fst_mem_of_mem_zipIdx this
    · simp at h
  · simp at h

/-- A column is smaller than the patterns it comes from, by at least one node for each of them. -/
theorem sizeList_column_add_length_le (c : String) (i : Nat) (ps : List Pattern) :
    Pattern.sizeList (column c i ps) + ps.length ≤ Pattern.sizeList ps := by
  induction ps with
  | nil => simp [column, rowsOf, Pattern.sizeList]
  | cons p ps ih =>
    have hp := p.size_pos
    simp only [column, rowsOf, List.length_cons, Pattern.sizeList] at ih ⊢
    cases hrow : rowOf? c p with
    | none =>
      simp only [List.filterMap_cons, hrow]
      omega
    | some row =>
      have hsize : Pattern.sizeList row + 1 = p.size := by
        cases p <;> simp [rowOf?] at hrow
        obtain ⟨_, rfl⟩ := hrow
        simp [Pattern.size]
      simp only [List.filterMap_cons, hrow]
      cases htest : soleTest? i row with
      | none => simp only; omega
      | some q =>
        have := Pattern.size_le_sizeList (soleTest?_mem htest)
        simp only [Pattern.sizeList]
        omega

theorem sizeList_column_lt (c : String) (i : Nat) {ps : List Pattern} (h : ps ≠ []) :
    Pattern.sizeList (column c i ps) < Pattern.sizeList ps := by
  have := sizeList_column_add_length_le c i ps
  have := List.length_pos_iff.2 h
  omega

/-! ## Gaps -/

/-- The gaps of the given columns in turn; nothing at all as soon as one column has no gap. -/
def columnGaps (gapsAt : Nat → Except TypeError (List Gap)) (describe : Nat → Gap → Gap) :
    List Nat → Except TypeError (Option (List Gap))
  | [] => .ok (some [])
  | i :: rest => do
    let here ← gapsAt i
    if here.isEmpty then return none
    let later ← columnGaps gapsAt describe rest
    return later.map (here.map (describe i) ++ ·)

/-- What rows for the constructor `c` leave out of its values.  A row that tests nothing covers the
constructor; rows that test several fields at once leave it open as a whole. -/
def constructorGaps (c : String) (arity : Nat) (rows : List (List Pattern))
    (gapsAt : Nat → Except TypeError (List Gap)) : Except TypeError (List Gap) := do
  if rows.any fun row => (tests row).isEmpty then return []
  let columns := (List.range arity).filter fun i => rows.any fun row => (soleTest? i row).isSome
  match ← columnGaps gapsAt (Gap.atArg c arity) columns with
  | none => return []
  | some gaps =>
    if rows.any fun row => 1 < (tests row).length then return [Gap.anyArgs c arity]
    else return gaps

/-- The integer of a literal pattern. -/
def int? : Pattern → Option Int
  | .int n => some n
  | _ => none

/-- Whether the pattern is the literal of that truth value. -/
def isBool (b : Bool) : Pattern → Bool
  | .bool b' => b' == b
  | _ => false

/-- The constructors that the patterns name are all known. -/
def requireKnown (r : Registry) : List Pattern → Except TypeError Unit
  | [] => .ok ()
  | .con c _ :: ps => do
    let _ ← r.require c
    requireKnown r ps
  | _ :: ps => requireKnown r ps

/-- What a list of patterns leaves out. -/
def gaps (r : Registry) (ps : List Pattern) : Except TypeError (List Gap) :=
  if ps.any Pattern.isIrrefutable then .ok []
  else match _h : ps with
  | [] => .ok [.anything]
  | .int _ :: _ => .ok [.otherIntegers (.ofList (ps.filterMap int?))]
  | .bool _ :: _ => .ok (([true, false].filter fun b => !ps.any (isBool b)).map .bool)
  | .con c _ :: _ => do
    let owner ← r.require c
    requireKnown r ps
    let (absent, present) := owner.siblings.partition fun d => (rowsOf d ps).isEmpty
    let inner ← present.mapM fun d => do
      let info ← r.require d
      constructorGaps d info.arity (rowsOf d ps) fun i => gaps r (column d i ps)
    return absent.map (.con · []) ++ inner.flatten
  | _ => .ok [.anything]
termination_by Pattern.sizeList ps
decreasing_by
  subst _h
  exact sizeList_column_lt d i (by simp)

/-- The texts of what a list of patterns leaves out. -/
def missingCases (r : Registry) (ps : List Pattern) : Except TypeError (List String) :=
  return (← gaps r ps).map Gap.render

end Coverage

end Polytype
