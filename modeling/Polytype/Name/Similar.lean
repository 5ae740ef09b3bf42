/-
# Polytype.Name.Similar — names that were perhaps meant.

Names are texts of characters, so bytes that are not UTF-8 are no name.  They are measured in their
bytes and ordered by their characters, which is the order of the bytes as well.  `similar` lists the
candidates near a name, nearest first and equally near ones in ascending order; `nearest?` is what a
message suggests.
-/
import Polytype.Name.EditDistance

namespace Polytype.Name

/-- The bytes of a name. -/
def bytes (name : String) : List UInt8 := name.toByteArray.data.toList

/-- The edit distance of two names, counted in bytes. -/
def distance (a b : String) : Nat := editDistance (bytes a) (bytes b)

/-- The order of scored names: by distance, then by name. -/
def nearer (a b : Nat × String) : Bool := a.1 < b.1 || (a.1 == b.1 && a.2 ≤ b.2)

/-- The candidates that differ from `target` and are at most `limit` away from it, nearest first. -/
def similar (target : String) (candidates : List String) (limit : Int) : List String :=
  let scored := (candidates.filter (· != target)).map fun c => (distance target c, c)
  ((scored.filter fun c => (c.1 : Int) ≤ limit).mergeSort nearer).map Prod.snd

/-- How far a suggested name may be from the one that was written. -/
def suggestionLimit : Int := 2

/-- The name to suggest in place of an unknown one. -/
def nearest? (target : String) (candidates : List String) : Option String :=
  (similar target candidates suggestionLimit).head?

end Polytype.Name
