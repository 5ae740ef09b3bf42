/-
# Polytype.Fields — labelled components in their normal order.

Records are written with their fields in any order and are kept with their fields in ascending order
of the labels.  Where a label is written twice the last component counts.
-/
import Std.Data.ExtTreeMap

namespace Polytype.Fields

variable {α : Type}

/-- Sorts fields by label and keeps the last of those with the same label. -/
def ofList (fields : List (String × α)) : List (String × α) :=
  (Std.ExtTreeMap.ofList fields : Std.ExtTreeMap String α).toList

/-- The labels, in order. -/
def labels (fields : List (String × α)) : List String := fields.map Prod.fst

/-- Fields are in normal order when their labels ascend strictly. -/
def Sorted (fields : List (String × α)) : Prop :=
  fields.Pairwise fun f g => compare f.1 g.1 = .lt

theorem sorted_ofList (fields : List (String × α)) : Sorted (ofList fields) :=
  Std.ExtTreeMap.ordered_keys_toList

end Polytype.Fields
