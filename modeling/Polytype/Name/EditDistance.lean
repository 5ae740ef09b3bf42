/-
# Polytype.Name.EditDistance — the edit distance of two sequences.

The distance is the least number of insertions, deletions and replacements of single items that turn
one sequence into the other.  It is computed row by row: the row of `xs` against `ys` lists the
distances from `xs` to `ys` and to each of its tails, so its first entry is the distance itself, and
the row of `x :: xs` follows from the row of `xs`.
-/

namespace Polytype.Name

variable {α : Type} [DecidableEq α]

/-- The distances from the empty sequence to `ys` and to each of its tails. -/
def emptyRow : List α → List Nat
  | [] => [0]
  | _ :: ys => (ys.length + 1) :: emptyRow ys

/-- The row of `x :: xs` against `ys`, from the row of `xs`. -/
def nextRow (x : α) : List α → List Nat → List Nat
  | y :: ys, dropped :: kept :: below =>
    let row := nextRow x ys (kept :: below)
    let replaced := kept + if x = y then 0 else 1
    min (min (dropped + 1) (row.headD 0 + 1)) replaced :: row
  | _, row => row.map (· + 1)

/-- The distances from `xs` to `ys` and to each of its tails. -/
def distanceRow (xs ys : List α) : List Nat :=
  xs.foldr (fun x row => nextRow x ys row) (emptyRow ys)

/-- The least number of single edits that turn `xs` into `ys`. -/
def editDistance (xs ys : List α) : Nat := (distanceRow xs ys).headD 0

end Polytype.Name
