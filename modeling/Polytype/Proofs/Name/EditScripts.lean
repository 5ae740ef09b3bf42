/-
# Polytype.Proofs.Name.EditScripts — the edit distance is the length of a shortest script.

A script is a sequence of edits, each of which inserts, deletes or replaces one item at some position of what the
edits before it have left (`runScript`).  Scripts may go back and forth and may undo what they did, so the distance
is related to them in two steps.  An alignment (`Aligned`) goes through both sequences once, from left to right.
The rows of the computation list the distances to all tails (`distanceRow_cons_right`), which gives the
recurrence, and by the recurrence the distance is the least cost of an alignment (`aligned_editDistance`,
`Aligned.editDistance_le`).

The rows of the computation are about tails, from the right.  An alignment can be read from either end
(`Aligned.reverse`), so the same distances stand in a table over beginnings that is filled from the left
(`FillsTable.eq_editDistance`).

An alignment is turned into a script of the same length (`Aligned.exists_script`).  Conversely one edit in front
of an alignment makes it longer by at most one (`Aligned.of_change`), so a script of any order and length has an
alignment that costs no more.
-/
import Polytype.Name.EditDistance

namespace Polytype.Name

variable {α : Type}

/-! ## Scripts -/

/-- A change at the front of a sequence. -/
inductive Change (α : Type) where
  | insert (a : α)
  | delete
  | replace (a : α)
  deriving DecidableEq, Repr

/-- A change, and the number of items that it leaves alone in front of it. -/
structure Edit (α : Type) where
  position : Nat
  change : Change α
  deriving DecidableEq, Repr

/-- The sequence after a change at its front.  Nothing can be deleted or replaced in the empty sequence. -/
def Change.apply : Change α → List α → Option (List α)
  | .insert a, xs => some (a :: xs)
  | .delete, _ :: xs => some xs
  | .replace a, _ :: xs => some (a :: xs)
  | .delete, [] => none
  | .replace _, [] => none

/-- The sequence after a change at a position, if there is such a position. -/
def Change.applyAt (c : Change α) : Nat → List α → Option (List α)
  | 0, xs => c.apply xs
  | i + 1, x :: xs => (c.applyAt i xs).map (x :: ·)
  | _ + 1, [] => none

/-- Only a deletion leaves nothing. -/
theorem Change.applyAt_eq_nil {c : Change α} {i : Nat} {xs : List α} (h : c.applyAt i xs = some []) :
    ∃ a, xs = [a] := by
  cases i with
  | zero =>
      cases c with
      | insert a => simp [applyAt, apply] at h
      | delete => cases xs <;> simp_all [applyAt, apply]
      | replace a => cases xs <;> simp [applyAt, apply] at h
  | succ i => cases xs <;> simp [applyAt] at h

/-- What a change has left begins with a new item, with an item in front of which one is gone, with an item in
place of another one, or with an item in front of the change. -/
theorem Change.applyAt_eq_cons {c : Change α} {i : Nat} {xs ys : List α} {y : α}
    (h : c.applyAt i xs = some (y :: ys)) :
    xs = ys ∨ (∃ a, xs = a :: y :: ys) ∨ (∃ a, xs = a :: ys) ∨
      ∃ j xs', xs = y :: xs' ∧ c.applyAt j xs' = some ys := by
  cases i with
  | zero =>
      cases c with
      | insert a => exact Or.inl (List.cons.inj (Option.some.inj h)).2
      | delete =>
          cases xs with
          | nil => cases h
          | cons a xs => exact Or.inr (Or.inl ⟨a, congrArg (a :: ·) (Option.some.inj h)⟩)
      | replace b =>
          cases xs with
          | nil => cases h
          | cons a xs =>
              have htail := (List.cons.inj (Option.some.inj h)).2
              exact Or.inr (Or.inr (Or.inl ⟨a, congrArg (a :: ·) htail⟩))
  | succ i =>
      cases xs with
      | nil => cases h
      | cons a xs =>
          obtain ⟨ys', hys, heq⟩ := Option.map_eq_some_iff.mp h
          obtain ⟨rfl, rfl⟩ := List.cons.inj heq
          exact Or.inr (Or.inr (Or.inr ⟨i, xs, rfl, hys⟩))

/-- The sequence after an edit. -/
def Edit.apply (e : Edit α) (xs : List α) : Option (List α) := e.change.applyAt e.position xs

/-- The sequence after all edits of a script, in turn. -/
def runScript : List (Edit α) → List α → Option (List α)
  | [], xs => some xs
  | e :: script, xs => (e.apply xs).bind (runScript script)

theorem runScript_append (s t : List (Edit α)) (xs : List α) :
    runScript (s ++ t) xs = (runScript s xs).bind (runScript t) := by
  induction s generalizing xs with
  | nil => rfl
  | cons e s ih =>
      rw [List.cons_append, runScript, runScript, Option.bind_assoc]
      exact congrArg _ (funext ih)

/-- The edit one position further to the right. -/
def Edit.shift (e : Edit α) : Edit α := ⟨e.position + 1, e.change⟩

/-- A script may be carried out behind an item. -/
theorem runScript_shift (script : List (Edit α)) (x : α) (xs : List α) :
    runScript (script.map Edit.shift) (x :: xs) = (runScript script xs).map (x :: ·) := by
  induction script generalizing xs with
  | nil => rfl
  | cons e script ih =>
      rw [List.map_cons, runScript, runScript]
      change ((e.apply xs).map (x :: ·)).bind _ = _
      cases e.apply xs with
      | none => rfl
      | some ys => exact ih ys

/-! ## The recurrence -/

section Recurrence

variable [DecidableEq α]

theorem distanceRow_cons_left (x : α) (xs ys : List α) :
    distanceRow (x :: xs) ys = nextRow x ys (distanceRow xs ys) := rfl

theorem distanceRow_nil_right (xs : List α) : distanceRow xs [] = [xs.length] := by
  induction xs with
  | nil => rfl
  | cons x xs ih =>
      rw [distanceRow_cons_left, ih]
      rfl

theorem nextRow_ne_nil (x : α) (ys : List α) {row : List Nat} (h : row ≠ []) : nextRow x ys row ≠ [] := by
  fun_cases nextRow x ys row with
  | case1 => exact List.cons_ne_nil _ _
  | case2 => simpa using h

/-- A row begins with the distance itself. -/
theorem distanceRow_head (xs ys : List α) : ∃ below, distanceRow xs ys = editDistance xs ys :: below := by
  have hne : distanceRow xs ys ≠ [] := by
    induction xs with
    | nil => cases ys <;> exact List.cons_ne_nil _ _
    | cons x xs ih => exact nextRow_ne_nil x ys ih
  obtain ⟨n, below, hrow⟩ := List.exists_cons_of_ne_nil hne
  exact ⟨below, by rw [editDistance, hrow, List.headD_cons]⟩

/-- One more cell of the table, from the three cells next to it. -/
theorem distanceRow_cons_cons (x y : α) (xs ys : List α)
    (h : distanceRow xs (y :: ys) = editDistance xs (y :: ys) :: distanceRow xs ys) :
    distanceRow (x :: xs) (y :: ys) =
      min (min (editDistance xs (y :: ys) + 1) (editDistance (x :: xs) ys + 1))
        (editDistance xs ys + if x = y then 0 else 1) :: distanceRow (x :: xs) ys := by
  obtain ⟨below, hbelow⟩ := distanceRow_head xs ys
  rw [distanceRow_cons_left, h, hbelow, nextRow, ← hbelow, ← distanceRow_cons_left]
  rfl

/-- A row goes on with the row of the tail. -/
theorem distanceRow_cons_right (y : α) (xs ys : List α) :
    distanceRow xs (y :: ys) = editDistance xs (y :: ys) :: distanceRow xs ys := by
  induction xs with
  | nil => rfl
  | cons x xs ih =>
      have hcell := distanceRow_cons_cons x y xs ys ih
      rw [editDistance, hcell, List.headD_cons]

theorem editDistance_nil_left (ys : List α) : editDistance [] ys = ys.length := by
  cases ys <;> rfl

theorem editDistance_nil_right (xs : List α) : editDistance xs [] = xs.length := by
  rw [editDistance, distanceRow_nil_right, List.headD_cons]

theorem editDistance_cons_cons (x y : α) (xs ys : List α) :
    editDistance (x :: xs) (y :: ys) =
      min (min (editDistance xs (y :: ys) + 1) (editDistance (x :: xs) ys + 1))
        (editDistance xs ys + if x = y then 0 else 1) := by
  have hcell := distanceRow_cons_cons x y xs ys (distanceRow_cons_right y xs ys)
  rw [editDistance, hcell, List.headD_cons]

theorem editDistance_cons_left_le (x : α) (xs ys : List α) :
    editDistance (x :: xs) ys ≤ editDistance xs ys + 1 := by
  cases ys with
  | nil => simp [editDistance_nil_right]
  | cons y ys =>
      rw [editDistance_cons_cons]
      omega

theorem editDistance_cons_right_le (y : α) (xs ys : List α) :
    editDistance xs (y :: ys) ≤ editDistance xs ys + 1 := by
  cases xs with
  | nil => simp [editDistance_nil_left]
  | cons x xs =>
      rw [editDistance_cons_cons]
      omega

end Recurrence

/-! ## Alignments -/

/-- The sequences are walked through together, at the given number of items that are not kept. -/
inductive Aligned : Nat → List α → List α → Prop
  | nil : Aligned 0 [] []
  | keep {n : Nat} {xs ys : List α} (x : α) : Aligned n xs ys → Aligned n (x :: xs) (x :: ys)
  | delete {n : Nat} {xs ys : List α} (x : α) : Aligned n xs ys → Aligned (n + 1) (x :: xs) ys
  | insert {n : Nat} {xs ys : List α} (y : α) : Aligned n xs ys → Aligned (n + 1) xs (y :: ys)
  | replace {n : Nat} {xs ys : List α} (x y : α) :
      Aligned n xs ys → Aligned (n + 1) (x :: xs) (y :: ys)

namespace Aligned

variable {n : Nat} {xs ys : List α}

theorem symm (h : Aligned n xs ys) : Aligned n ys xs := by
  induction h with
  | nil => exact .nil
  | keep x _ ih => exact .keep x ih
  | delete x _ ih => exact .insert x ih
  | insert y _ ih => exact .delete y ih
  | replace x y _ ih => exact .replace y x ih

theorem refl (xs : List α) : Aligned 0 xs xs := by
  induction xs with
  | nil => exact .nil
  | cons x xs ih => exact .keep x ih

theorem eq_of_zero (h : Aligned 0 xs ys) : xs = ys := by
  generalize hn : 0 = n at h
  induction h with
  | nil => rfl
  | keep x _ ih => rw [ih hn]
  | delete | insert | replace => cases hn

/-- No alignment costs less than the distance. -/
theorem editDistance_le [DecidableEq α] (h : Aligned n xs ys) : editDistance xs ys ≤ n := by
  induction h with
  | nil => exact Nat.le_refl 0
  | @keep n xs ys x _ ih =>
      rw [editDistance_cons_cons, if_pos rfl]
      omega
  | @delete n xs ys x _ ih =>
      have hle := editDistance_cons_left_le x xs ys
      omega
  | @insert n xs ys y _ ih =>
      have hle := editDistance_cons_right_le y xs ys
      omega
  | @replace n xs ys x y _ ih =>
      rw [editDistance_cons_cons]
      split <;> omega

/-- An alignment is carried out by a script of as many edits as it costs. -/
theorem exists_script (h : Aligned n xs ys) :
    ∃ script : List (Edit α), script.length = n ∧ runScript script xs = some ys := by
  induction h with
  | nil => exact ⟨[], rfl, rfl⟩
  | keep x _ ih =>
      obtain ⟨script, hlen, hrun⟩ := ih
      exact ⟨script.map Edit.shift, by simpa using hlen, by rw [runScript_shift, hrun]; rfl⟩
  | delete x _ ih =>
      obtain ⟨script, hlen, hrun⟩ := ih
      exact ⟨⟨0, .delete⟩ :: script, congrArg (· + 1) hlen, hrun⟩
  | insert y _ ih =>
      obtain ⟨script, hlen, hrun⟩ := ih
      refine ⟨⟨0, .insert y⟩ :: script.map Edit.shift, by simpa using hlen, ?_⟩
      exact (runScript_shift script y _).trans (by rw [hrun]; rfl)
  | replace x y _ ih =>
      obtain ⟨script, hlen, hrun⟩ := ih
      refine ⟨⟨0, .replace y⟩ :: script.map Edit.shift, by simpa using hlen, ?_⟩
      exact (runScript_shift script y _).trans (by rw [hrun]; rfl)

end Aligned

/-- Some alignment costs no more than the distance. -/
theorem aligned_editDistance [DecidableEq α] (xs ys : List α) : Aligned (editDistance xs ys) xs ys := by
  induction xs generalizing ys with
  | nil =>
      rw [editDistance_nil_left]
      induction ys with
      | nil => exact .nil
      | cons y ys ih => exact .insert y ih
  | cons x xs ihx =>
      induction ys with
      | nil =>
          rw [editDistance_nil_right]
          have hxs := ihx []
          rw [editDistance_nil_right] at hxs
          exact .delete x hxs
      | cons y ys ihy =>
          have hleast : ∀ a b c : Nat, min (min a b) c = a ∨ min (min a b) c = b ∨ min (min a b) c = c := by
            omega
          rw [editDistance_cons_cons]
          rcases hleast (editDistance xs (y :: ys) + 1) (editDistance (x :: xs) ys + 1) _ with h | h | h
          · rw [h]
            exact .delete x (ihx (y :: ys))
          · rw [h]
            exact .insert y ihy
          · rw [h]
            split
            · subst_vars
              exact .keep _ (ihx ys)
            · exact .replace x y (ihx ys)

/-- A change before an alignment is made up for at the cost of one item.  The induction is on the alignment, which
tells what becomes of the item that the change is about. -/
theorem Aligned.of_change {n : Nat} {xs ys zs : List α} (h : Aligned n ys zs) {c : Change α} {i : Nat}
    (hc : c.applyAt i xs = some ys) : ∃ k ≤ n + 1, Aligned k xs zs := by
  induction h generalizing xs i with
  | nil =>
      obtain ⟨a, rfl⟩ := Change.applyAt_eq_nil hc
      exact ⟨1, Nat.le_refl 1, .delete a .nil⟩
  | @keep n ys zs y h ih =>
      obtain rfl | ⟨a, rfl⟩ | ⟨a, rfl⟩ | ⟨j, xs, rfl, hrest⟩ := Change.applyAt_eq_cons hc
      · exact ⟨n + 1, Nat.le_refl _, .insert y h⟩
      · exact ⟨n + 1, Nat.le_refl _, .delete a (.keep y h)⟩
      · exact ⟨n + 1, Nat.le_refl _, .replace a y h⟩
      · obtain ⟨k, hk, h⟩ := ih hrest
        exact ⟨k, hk, .keep y h⟩
  | @delete n ys zs y h ih =>
      obtain rfl | ⟨a, rfl⟩ | ⟨a, rfl⟩ | ⟨j, xs, rfl, hrest⟩ := Change.applyAt_eq_cons hc
      · exact ⟨n, by omega, h⟩
      · exact ⟨n + 1 + 1, Nat.le_refl _, .delete a (.delete y h)⟩
      · exact ⟨n + 1, by omega, .delete a h⟩
      · obtain ⟨k, hk, h⟩ := ih hrest
        exact ⟨k + 1, Nat.succ_le_succ hk, .delete y h⟩
  | insert z h ih =>
      obtain ⟨k, hk, h⟩ := ih hc
      exact ⟨k + 1, Nat.succ_le_succ hk, .insert z h⟩
  | @replace n ys zs y z h ih =>
      obtain rfl | ⟨a, rfl⟩ | ⟨a, rfl⟩ | ⟨j, xs, rfl, hrest⟩ := Change.applyAt_eq_cons hc
      · exact ⟨n + 1, by omega, .insert z h⟩
      · exact ⟨n + 1 + 1, Nat.le_refl _, .delete a (.replace y z h)⟩
      · exact ⟨n + 1, by omega, .replace a z h⟩
      · obtain ⟨k, hk, h⟩ := ih hrest
        exact ⟨k + 1, Nat.succ_le_succ hk, .replace y z h⟩

/-! ## The table over beginnings -/

namespace Aligned

variable {n m : Nat} {xs ys xs' ys' : List α}

theorem append (h : Aligned n xs ys) (h' : Aligned m xs' ys') : Aligned (n + m) (xs ++ xs') (ys ++ ys') := by
  induction h with
  | nil => rwa [Nat.zero_add]
  | keep x _ ih => exact .keep x ih
  | delete x _ ih =>
      rw [Nat.add_right_comm]
      exact .delete x ih
  | insert y _ ih =>
      rw [Nat.add_right_comm]
      exact .insert y ih
  | replace x y _ ih =>
      rw [Nat.add_right_comm]
      exact .replace x y ih

/-- An alignment may be walked through from the right as well. -/
theorem reverse (h : Aligned n xs ys) : Aligned n xs.reverse ys.reverse := by
  induction h with
  | nil => exact .nil
  | keep x _ ih =>
      rw [List.reverse_cons, List.reverse_cons]
      exact ih.append (.keep x .nil)
  | delete x _ ih =>
      have hlast := ih.append (.delete x .nil)
      rwa [List.append_nil, ← List.reverse_cons] at hlast
  | insert y _ ih =>
      have hlast := ih.append (.insert y .nil)
      rwa [List.append_nil, ← List.reverse_cons] at hlast
  | replace x y _ ih =>
      rw [List.reverse_cons, List.reverse_cons]
      exact ih.append (.replace x y .nil)

end Aligned

section Table

variable [DecidableEq α]

theorem editDistance_reverse (xs ys : List α) : editDistance xs.reverse ys.reverse = editDistance xs ys := by
  refine Nat.le_antisymm (aligned_editDistance xs ys).reverse.editDistance_le ?_
  have hback := (aligned_editDistance xs.reverse ys.reverse).reverse
  rw [List.reverse_reverse, List.reverse_reverse] at hback
  exact hback.editDistance_le

/-- The recurrence at the other end: the distance from the distances of beginnings. -/
theorem editDistance_concat_concat (x y : α) (xs ys : List α) :
    editDistance (xs ++ [x]) (ys ++ [y]) =
      min (min (editDistance xs (ys ++ [y]) + 1) (editDistance (xs ++ [x]) ys + 1))
        (editDistance xs ys + if x = y then 0 else 1) := by
  have hcell := editDistance_cons_cons x y xs.reverse ys.reverse
  rw [← List.reverse_concat, ← List.reverse_concat] at hcell
  simpa only [editDistance_reverse] using hcell

/-- A table with a cell for every two beginnings: the borders count, and every other cell follows from the cells above
it, to its left and between these two. -/
structure FillsTable (xs ys : List α) (d : Nat → Nat → Nat) : Prop where
  left : ∀ i ≤ xs.length, d i 0 = i
  top : ∀ j ≤ ys.length, d 0 j = j
  cell : ∀ i j x y, xs[i]? = some x → ys[j]? = some y →
    d (i + 1) (j + 1) = min (min (d i (j + 1) + 1) (d (i + 1) j + 1)) (d i j + if x = y then 0 else 1)

/-- The distances of the beginnings are such a table. -/
theorem fillsTable_editDistance (xs ys : List α) :
    FillsTable xs ys fun i j => editDistance (xs.take i) (ys.take j) where
  left i hi := by rw [List.take_zero, editDistance_nil_right, List.length_take_of_le hi]
  top j hj := by rw [List.take_zero, editDistance_nil_left, List.length_take_of_le hj]
  cell i j x y hx hy := by
    rw [List.take_add_one, List.take_add_one, hx, hy]
    exact editDistance_concat_concat x y _ _

/-- A table that is filled from the left holds the distances of the beginnings, and so the distance in its last cell. -/
theorem FillsTable.eq_editDistance {xs ys : List α} {d : Nat → Nat → Nat} (h : FillsTable xs ys d) {i j : Nat}
    (hi : i ≤ xs.length) (hj : j ≤ ys.length) : d i j = editDistance (xs.take i) (ys.take j) := by
  have hdistances := fillsTable_editDistance xs ys
  induction i generalizing j with
  | zero => rw [h.top j hj, hdistances.top j hj]
  | succ i ihi =>
      induction j with
      | zero => rw [h.left (i + 1) hi, hdistances.left (i + 1) hi]
      | succ j ihj =>
          have hx := List.getElem?_eq_getElem (l := xs) hi
          have hy := List.getElem?_eq_getElem (l := ys) hj
          have hi' : i ≤ xs.length := Nat.le_of_succ_le hi
          have hj' : j ≤ ys.length := Nat.le_of_succ_le hj
          rw [h.cell i j _ _ hx hy, ihi hi' hj, ihi hi' hj', ihj hj']
          exact (hdistances.cell i j _ _ hx hy).symm

end Table

/-! ## The distance -/

section Distance

variable [DecidableEq α]

/-- No script is shorter than the distance. -/
theorem editDistance_le_of_script {script : List (Edit α)} {xs ys : List α}
    (h : runScript script xs = some ys) : editDistance xs ys ≤ script.length := by
  induction script generalizing xs with
  | nil =>
      obtain rfl : xs = ys := Option.some.inj h
      exact (Aligned.refl xs).editDistance_le
  | cons e script ih =>
      obtain ⟨zs, hedit, hrest⟩ := Option.bind_eq_some_iff.mp h
      obtain ⟨k, hk, haligned⟩ := (aligned_editDistance zs ys).of_change hedit
      have hle := haligned.editDistance_le
      have hzs := ih hrest
      rw [List.length_cons]
      omega

theorem exists_shortest_script (xs ys : List α) :
    ∃ script : List (Edit α), script.length = editDistance xs ys ∧ runScript script xs = some ys :=
  (aligned_editDistance xs ys).exists_script

theorem editDistance_comm (xs ys : List α) : editDistance xs ys = editDistance ys xs :=
  Nat.le_antisymm (aligned_editDistance ys xs).symm.editDistance_le
    (aligned_editDistance xs ys).symm.editDistance_le

theorem editDistance_eq_zero_iff {xs ys : List α} : editDistance xs ys = 0 ↔ xs = ys := by
  constructor
  · intro h
    exact Aligned.eq_of_zero (h ▸ aligned_editDistance xs ys)
  · rintro rfl
    exact Nat.le_zero.mp (Aligned.refl xs).editDistance_le

/-- A shortest script to `ys` and one from there to `zs` make up a script to `zs`. -/
theorem editDistance_triangle (xs ys zs : List α) :
    editDistance xs zs ≤ editDistance xs ys + editDistance ys zs := by
  obtain ⟨s, hs, hxy⟩ := exists_shortest_script xs ys
  obtain ⟨t, ht, hyz⟩ := exists_shortest_script ys zs
  have hrun : runScript (s ++ t) xs = some zs := by
    rw [runScript_append, hxy]
    exact hyz
  have hle := editDistance_le_of_script hrun
  rwa [List.length_append, hs, ht] at hle

/-- **The edit distance.** Some script of that many insertions, deletions and replacements of single items turns
the one sequence into the other, and no shorter script does.  So the distance is a metric. -/
theorem editDistance_isLeast (xs ys : List α) :
    (∃ script : List (Edit α), script.length = editDistance xs ys ∧ runScript script xs = some ys) ∧
      (∀ script : List (Edit α), script.length < editDistance xs ys → runScript script xs ≠ some ys) ∧
      (editDistance xs ys = 0 ↔ xs = ys) ∧ editDistance xs ys = editDistance ys xs ∧
      ∀ zs : List α, editDistance xs zs ≤ editDistance xs ys + editDistance ys zs := by
  refine ⟨exists_shortest_script xs ys, fun script hlt hrun => ?_, editDistance_eq_zero_iff,
    editDistance_comm xs ys, editDistance_triangle xs ys⟩
  exact Nat.not_lt.mpr (editDistance_le_of_script hrun) hlt

end Distance

end Polytype.Name
