/-
# Polytype.Ty — the types that inference assigns to expressions.

A type is a primitive, a numbered variable, a function type, a tuple, a record with labelled
fields, or a declared sum type applied to arguments.  One more form, `Ty.absent`, holds the place of a
type that nobody gave: it is a constant that equals only itself, whatever names are declared.

Tuples, records and sums hold lists of types, so the file gives the induction principle that speaks
about the members of those lists (`Ty.induct`), decidable equality, and the first-order view that
unification works with: every type but a variable has a *head* (`Ty.head?`) and a list of *children*
(`Ty.children`), and is determined by the two (`Ty.ext_head`).

Record fields stand in ascending order of their labels.  Nothing here depends on that order: it is
kept by whoever builds a record from a list of fields (`Polytype.Fields`).
-/
import Std.Data.ExtTreeSet

namespace Polytype

/-- A type variable is known by its number alone. -/
abbrev TyVar := Int

/-- A finite set of type variables, listed in ascending order. -/
abbrev VarSet := Std.ExtTreeSet TyVar

/-- The types that need no declaration. -/
inductive Prim where
  | int
  | bool
  | char
  | range
  deriving DecidableEq, Repr

/-- The types of the inference algorithm. -/
inductive Ty where
  | prim (p : Prim)
  | var (v : TyVar)
  | fn (dom cod : Ty)
  | tuple (elems : List Ty)
  | record (fields : List (String × Ty))
  | sum (name : String) (args : List Ty)
  | absent
  deriving Inhabited

namespace Ty

/-- The type of integers. -/
@[match_pattern] abbrev int : Ty := .prim .int
/-- The type of truth values. -/
@[match_pattern] abbrev bool : Ty := .prim .bool
/-- The type of characters. -/
@[match_pattern] abbrev char : Ty := .prim .char
/-- The type of ranges of integers. -/
@[match_pattern] abbrev range : Ty := .prim .range

/-- The curried function type that takes `doms` in turn. -/
def fns (doms : List Ty) (cod : Ty) : Ty := doms.foldr .fn cod

/-- Induction on types: a property holds of every type if it passes from the members of each list of
components to the type built from them. -/
@[induction_eliminator]
theorem induct {motive : Ty → Prop}
    (prim : ∀ p, motive (.prim p))
    (var : ∀ v, motive (.var v))
    (fn : ∀ dom cod, motive dom → motive cod → motive (.fn dom cod))
    (tuple : ∀ elems, (∀ t ∈ elems, motive t) → motive (.tuple elems))
    (record : ∀ fields, (∀ f ∈ fields, motive f.2) → motive (.record fields))
    (sum : ∀ name args, (∀ t ∈ args, motive t) → motive (.sum name args))
    (absent : motive .absent)
    (t : Ty) : motive t :=
  @Ty.rec motive (fun ts => ∀ t ∈ ts, motive t) (fun fs => ∀ f ∈ fs, motive f.2)
    (fun f => motive f.2) prim var fn tuple record sum absent
    (by simp) (fun _ _ ht hts => List.forall_mem_cons.2 ⟨ht, hts⟩)
    (by simp) (fun _ _ hf hfs => List.forall_mem_cons.2 ⟨hf, hfs⟩)
    (fun _ _ ht => ht) t

/-! ## Equality -/

mutual
/-- Structural comparison. -/
def beq : Ty → Ty → Bool
  | .prim p, .prim q => p == q
  | .var v, .var w => v == w
  | .fn a b, .fn c d => a.beq c && b.beq d
  | .tuple ts, .tuple us => beqList ts us
  | .record fs, .record gs => beqFields fs gs
  | .sum m ts, .sum n us => m == n && beqList ts us
  | .absent, .absent => true
  | _, _ => false
/-- Structural comparison of lists of types. -/
def beqList : List Ty → List Ty → Bool
  | [], [] => true
  | t :: ts, u :: us => t.beq u && beqList ts us
  | _, _ => false
/-- Structural comparison of labelled types: the labels count too. -/
def beqFields : List (String × Ty) → List (String × Ty) → Bool
  | [], [] => true
  | (l, t) :: fs, (m, u) :: gs => l == m && (t.beq u && beqFields fs gs)
  | _, _ => false
end

private theorem beqList_iff {ts : List Ty} (ih : ∀ t ∈ ts, ∀ u, t.beq u = true ↔ t = u) :
    ∀ us, beqList ts us = true ↔ ts = us := by
  induction ts with
  | nil => intro us; cases us <;> simp [beqList]
  | cons t ts iht =>
    intro us
    cases us with
    | nil => simp [beqList]
    | cons u us =>
      simp [beqList, ih t, iht fun t' h => ih t' (List.mem_cons_of_mem _ h)]

private theorem beqFields_iff {fs : List (String × Ty)}
    (ih : ∀ f ∈ fs, ∀ u, f.2.beq u = true ↔ f.2 = u) :
    ∀ gs, beqFields fs gs = true ↔ fs = gs := by
  induction fs with
  | nil => intro gs; cases gs <;> simp [beqFields]
  | cons f fs ihf =>
    intro gs
    obtain ⟨l, t⟩ := f
    cases gs with
    | nil => simp [beqFields]
    | cons g gs =>
      obtain ⟨m, u⟩ := g
      simp [beqFields, ih (l, t), ihf fun f' h => ih f' (List.mem_cons_of_mem _ h), and_assoc]

theorem beq_iff_eq (t : Ty) : ∀ u, t.beq u = true ↔ t = u := by
  induction t with
  | prim p => intro u; cases u <;> simp [beq]
  | var v => intro u; cases u <;> simp [beq]
  | fn a b iha ihb => intro u; cases u <;> simp [beq, iha, ihb]
  | tuple ts ih => intro u; cases u <;> simp [beq, beqList_iff ih]
  | record fs ih => intro u; cases u <;> simp [beq, beqFields_iff ih]
  | sum n ts ih => intro u; cases u <;> simp [beq, beqList_iff ih]
  | absent => intro u; cases u <;> simp [beq]

instance : DecidableEq Ty := fun t u => decidable_of_iff _ (beq_iff_eq t u)

/-! ## Variables and size -/

mutual
/-- The variables of a type, one entry per occurrence, from left to right. -/
def vars : Ty → List TyVar
  | .prim _ => []
  | .var v => [v]
  | .fn dom cod => dom.vars ++ cod.vars
  | .tuple elems => varsList elems
  | .record fields => varsFields fields
  | .sum _ args => varsList args
  | .absent => []
/-- The variables of a list of types. -/
def varsList : List Ty → List TyVar
  | [] => []
  | t :: ts => t.vars ++ varsList ts
/-- The variables of labelled types. -/
def varsFields : List (String × Ty) → List TyVar
  | [] => []
  | (_, t) :: fs => t.vars ++ varsFields fs
end

mutual
/-- The number of nodes of a type. -/
def size : Ty → Nat
  | .prim _ => 1
  | .var _ => 1
  | .fn dom cod => dom.size + cod.size + 1
  | .tuple elems => sizeList elems + 1
  | .record fields => sizeFields fields + 1
  | .sum _ args => sizeList args + 1
  | .absent => 1
/-- The number of nodes of a list of types. -/
def sizeList : List Ty → Nat
  | [] => 0
  | t :: ts => t.size + sizeList ts
/-- The number of nodes of labelled types. -/
def sizeFields : List (String × Ty) → Nat
  | [] => 0
  | (_, t) :: fs => t.size + sizeFields fs
end

theorem varsList_eq (ts : List Ty) : varsList ts = ts.flatMap vars := by
  induction ts with
  | nil => rfl
  | cons t ts ih => simp [varsList, ih]

theorem varsFields_eq (fs : List (String × Ty)) :
    varsFields fs = (fs.map Prod.snd).flatMap vars := by
  induction fs with
  | nil => rfl
  | cons f fs ih => simp [varsFields, ih]

theorem sizeFields_eq (fs : List (String × Ty)) : sizeFields fs = sizeList (fs.map Prod.snd) := by
  induction fs with
  | nil => rfl
  | cons f fs ih => simp [sizeFields, sizeList, ih]

theorem size_pos (t : Ty) : 0 < t.size := by
  cases t <;> simp [size]

/-- The variables that occur in a type. -/
def freeVars (t : Ty) : VarSet := .ofList t.vars

@[simp]
theorem mem_freeVars {v : TyVar} {t : Ty} : v ∈ t.freeVars ↔ v ∈ t.vars := by
  simp [freeVars, Std.ExtTreeSet.mem_ofList]

/-- Whether `v` occurs in `t`. -/
def occurs (v : TyVar) (t : Ty) : Bool := t.vars.contains v

@[simp]
theorem occurs_iff {v : TyVar} {t : Ty} : t.occurs v = true ↔ v ∈ t.vars := by
  simp [occurs]

end Ty

/-! ## The first-order view -/

/-- What stands at the top of a type that is not a variable.  It fixes how many children there are,
so two types with different heads stay different whatever is put for their variables. -/
inductive Head where
  | prim (p : Prim)
  | fn
  | tuple (size : Nat)
  | record (labels : List String)
  | sum (name : String) (size : Nat)
  | absent
  deriving DecidableEq, Repr

namespace Ty

/-- The head of a type; a variable has none. -/
def head? : Ty → Option Head
  | .prim p => some (.prim p)
  | .var _ => none
  | .fn _ _ => some .fn
  | .tuple elems => some (.tuple elems.length)
  | .record fields => some (.record (fields.map Prod.fst))
  | .sum name args => some (.sum name args.length)
  | .absent => some .absent

/-- The components below the head, from left to right. -/
def children : Ty → List Ty
  | .prim _ => []
  | .var _ => []
  | .fn dom cod => [dom, cod]
  | .tuple elems => elems
  | .record fields => fields.map Prod.snd
  | .sum _ args => args
  | .absent => []

theorem head?_eq_none_iff {t : Ty} : t.head? = none ↔ ∃ v, t = .var v := by
  cases t <;> simp [head?]

/-- Types with the same head have equally many children. -/
theorem length_children_of_head {t u : Ty} (h : t.head? = u.head?) :
    t.children.length = u.children.length := by
  cases t <;> cases u <;> simp_all [head?, children]
  exact by simpa using congrArg List.length h

theorem eq_of_map_fst_of_map_snd {fs gs : List (String × Ty)}
    (hl : fs.map Prod.fst = gs.map Prod.fst) (ht : fs.map Prod.snd = gs.map Prod.snd) :
    fs = gs := by
  rw [← List.zip_unzip fs, ← List.zip_unzip gs, List.unzip_eq_map, List.unzip_eq_map, hl, ht]

/-- A type that is not a variable is determined by its head and its children. -/
theorem ext_head {t u : Ty} (h : t.head? = u.head?) (hv : t.head? ≠ none)
    (hc : t.children = u.children) : t = u := by
  cases t <;> cases u <;> simp_all [head?, children]
  exact eq_of_map_fst_of_map_snd h hc

theorem vars_eq_children {t : Ty} (h : t.head? ≠ none) :
    t.vars = t.children.flatMap vars := by
  cases t <;> simp_all [head?, children, vars, varsList_eq, varsFields_eq]

theorem vars_children_subset (t : Ty) : t.children.flatMap vars ⊆ t.vars := by
  by_cases h : t.head? = none
  · obtain ⟨v, rfl⟩ := head?_eq_none_iff.1 h
    simp [children]
  · exact fun v hv => vars_eq_children h ▸ hv

theorem size_eq_children (t : Ty) : t.size = sizeList t.children + 1 := by
  cases t <;> simp [children, size, sizeList, sizeFields_eq]

end Ty

end Polytype
