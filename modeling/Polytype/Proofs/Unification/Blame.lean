/-
# Polytype.Proofs.Unification.Blame — where a failed unification puts the blame.

An error of unification is about two types that stand deep inside the types that were to be unified, as the
bindings so far have left them.  Where that is can be said with positions (`Position`, `Ty.at?`): unification goes
through both types from left to right, and when it comes to a position it has made equal all that stands to the
left of it, in the most general way (`Unify.Visits.solvedBy_iff`).  The position may lie inside a type that has
replaced a variable, so it is looked up after the bindings have been put in (`Unify.Visits.at?_eq`).

The error is about the two types at the position that was visited last (`Unify.Ends.blamed`): they have different
heads, or one is a variable that occurs in the other.
-/
import Mathlib
import Polytype.Proofs.Unification.Recursion

namespace Polytype

/-! ## Positions -/

/-- The way to a part of a type: the index of a component, then the way on inside it. -/
abbrev Position := List Nat

/-- The part of a type at a position. -/
def Ty.at? : Ty → Position → Option Ty
  | t, [] => some t
  | t, i :: p => t.children[i]?.bind fun c => c.at? p

/-- The first position is to the left of the second one: they part at some node, the first one towards an
earlier component. -/
inductive Position.LeftOf : Position → Position → Prop
  | apart {i j : Nat} (q p : Position) : i < j → LeftOf (i :: q) (j :: p)
  | under (i : Nat) {q p : Position} : LeftOf q p → LeftOf (i :: q) (i :: p)

/-- The two types have the same parts at all positions to the left of `p`. -/
def Ty.EqualBefore (p : Position) (a b : Ty) : Prop :=
  ∀ q : Position, q.LeftOf p → a.at? q = b.at? q

namespace Ty

theorem Within.child {W : Set TyVar} {t c : Ty} (h : t.Within W) (hc : c ∈ t.children) : c.Within W :=
  fun v hv => h v (vars_children_subset t (List.mem_flatMap.mpr ⟨c, hc, hv⟩))

theorem equalBefore_nil (a b : Ty) : EqualBefore [] a b := fun _ hq => by cases hq

/-- Two types are equal to the left of a position in their components `i` exactly when their components before
that are equal, and these components to the left of the position. -/
theorem equalBefore_cons {a b l r : Ty} {i : Nat} {p : Position} (hl : a.children[i]? = some l)
    (hr : b.children[i]? = some r) :
    EqualBefore (i :: p) a b ↔ a.children.take i = b.children.take i ∧ EqualBefore p l r := by
  constructor
  · intro h
    refine ⟨List.ext_getElem? fun j => ?_, fun q hq => ?_⟩
    · rw [List.getElem?_take, List.getElem?_take]
      split
      · next hj => simpa [at?] using h [j] (.apart [] p hj)
      · rfl
    · simpa [at?, hl, hr] using h (i :: q) (.under i hq)
  · rintro ⟨htake, hrest⟩ q hq
    cases hq with
    | @apart j _ q _ hj =>
        have hchild : a.children[j]? = b.children[j]? := by
          simpa [List.getElem?_take, hj] using congrArg (·[j]?) htake
        rw [at?, at?, hchild]
    | under _ hq =>
        rw [at?, at?, hl, hr]
        exact hrest _ hq

end Ty

/-! ## Visits -/

namespace Unify

/-- Unifying `a` and `b` comes to unifying `l` and `r`, at position `p` and with the bindings `s` made. -/
inductive Visits : Ty → Ty → Position → Subst → Ty → Ty → Prop
  | here (a b : Ty) : Visits a b [] ∅ a b
  | component {a b l r l' r' : Ty} {i : Nat} {p : Position} {s u : Subst} :
      a.head? ≠ none → a.head? = b.head? → a.children[i]? = some l → b.children[i]? = some r →
      Ends (.components ∅ ((a.children.zip b.children).take i)) (.ok s) →
      Visits (s.apply l) (s.apply r) p u l' r' → Visits a b (i :: p) (u.comp s) l' r'

namespace Visits

variable {a b l r : Ty} {p : Position} {s : Subst}

/-- The two types stand at the position once the bindings are put in. -/
theorem at?_eq (h : Visits a b p s l r) : (s.apply a).at? p = some l ∧ (s.apply b).at? p = some r := by
  induction h with
  | here a b => rw [Subst.apply_empty, Subst.apply_empty]; exact ⟨rfl, rfl⟩
  | @component a b l r l' r' i p s u ha hab hl hr hs _ ih =>
      have hb : b.head? ≠ none := hab ▸ ha
      rw [Ty.at?, Ty.at?, Subst.children_apply ha, Subst.children_apply hb, List.getElem?_map,
        List.getElem?_map, hl, hr]
      simpa only [Option.map_some, Option.bind_some, Subst.apply_comp] using ih

/-- The bindings are the most general ones under which all that stands to the left of the position is equal. -/
theorem solvedBy_iff (h : Visits a b p s l r) :
    s.Settled (pairScope a b) ∧ ∀ f, s.SolvedBy f ↔ Ty.EqualBefore p (a.assign f) (b.assign f) := by
  induction h with
  | here a b =>
      refine ⟨Subst.Settled.empty _, fun f => iff_of_true (Subst.solvedBy_empty f) ?_⟩
      exact Ty.equalBefore_nil _ _
  | @component a b l r l' r' i p s u ha hab hl hr hs _ ih =>
      have hb : b.head? ≠ none := hab ▸ ha
      have hchild : ∀ {c d : Ty}, c ∈ a.children → d ∈ b.children →
          c.Within (pairScope a b) ∧ d.Within (pairScope a b) := by
        intro c d hc hd
        have hpair := Equations.within_scope (List.mem_singleton_self (a, b))
        exact ⟨Ty.Within.child hpair.1 hc, Ty.Within.child hpair.2 hd⟩
      -- the components before this one
      have hspec := unifyAll_spec ((a.children.zip b.children).take i)
      rw [← solveAfter_empty, show solveAfter _ _ = _ from hs.eq_answer.symm] at hspec
      have hsettled : s.Settled (pairScope a b) := by
        refine hspec.1.mono (Equations.scope_subset fun e he => ?_)
        obtain ⟨hc, hd⟩ := List.of_mem_zip (List.mem_of_mem_take he)
        exact hchild hc hd
      -- the rest of the way, inside this one
      have hu : u.Settled (live (pairScope a b) s) := by
        have hwithin := hchild (List.mem_of_getElem? hl) (List.mem_of_getElem? hr)
        exact ih.1.mono (pairScope_subset (hsettled.apply_within hwithin.1) (hsettled.apply_within hwithin.2))
      refine ⟨hsettled.comp hu, fun f => ?_⟩
      have hl' : (a.assign f).children[i]? = some (l.assign f) := by
        rw [Ty.children_assign ha, List.getElem?_map, hl, Option.map_some]
      have hr' : (b.assign f).children[i]? = some (r.assign f) := by
        rw [Ty.children_assign hb, List.getElem?_map, hr, Option.map_some]
      have htake : s.SolvedBy f ↔ (a.assign f).children.take i = (b.assign f).children.take i := by
        rw [hspec.2 f, List.zip_eq_zipWith, List.take_zipWith, ← List.zip_eq_zipWith, Equations.unifiedBy_zip,
          Ty.children_assign ha, Ty.children_assign hb, List.map_take, List.map_take]
        rw [List.length_take, List.length_take, Ty.length_children_of_head hab]
      rw [hu.solvedBy_comp, Ty.equalBefore_cons hl' hr', ← htake]
      refine and_congr_right fun hf => ?_
      rw [ih.2 f, hf.assign_apply, hf.assign_apply]

end Visits

/-! ## Blame -/

/-- An error that is rightly put on two types: their heads are different, or one is a variable that occurs in
the other. -/
def Blames : Fault → Ty → Ty → Prop
  | .mismatch left right, l, r =>
      left = l ∧ right = r ∧ l.head? ≠ none ∧ r.head? ≠ none ∧ l.head? ≠ r.head?
  | .occursCheck v t, l, r => (l = .var v ∧ r = t ∨ l = t ∧ r = .var v) ∧ t ≠ .var v ∧ v ∈ t.vars
  | _, _, _ => False

/-- The error of a call is rightly put on a pair that the call visits: for a pass over components, a pair that is
visited in one of them, all before it being solved. -/
def Call.Blamed (e : TypeError) : Call → Prop
  | .types a b => ∃ p s l r, Visits a b p s l r ∧ Blames e.fault l r
  | .components s eqs => ∃ i l r s', eqs[i]? = some (l, r) ∧ Ends (.components s (eqs.take i)) (.ok s') ∧
      ∃ p u l' r', Visits (s'.apply l) (s'.apply r) p u l' r' ∧ Blames e.fault l' r'

theorem bindVar_eq_error {v : TyVar} {t : Ty} {e : TypeError} (h : bindVar v t = .error e) :
    e.fault = .occursCheck v t ∧ t ≠ .var v ∧ v ∈ t.vars := by
  unfold bindVar at h
  split at h
  · cases h
  · next hne =>
      split at h
      · next hocc =>
          cases h
          exact ⟨rfl, hne, Ty.occurs_iff.mp hocc⟩
      · cases h

/-- A call that fails puts the blame rightly. -/
theorem Ends.blamed {c : Call} {e : TypeError} (h : Ends c (.error e)) : c.Blamed e := by
  generalize hx : Except.error e = x at h
  induction h with
  | bindLeft v b =>
      obtain ⟨hfault, hne, hv⟩ := bindVar_eq_error hx.symm
      exact ⟨[], ∅, _, _, .here _ _, hfault ▸ ⟨Or.inl ⟨rfl, rfl⟩, hne, hv⟩⟩
  | bindRight v _ =>
      obtain ⟨hfault, hne, hv⟩ := bindVar_eq_error hx.symm
      exact ⟨[], ∅, _, _, .here _ _, hfault ▸ ⟨Or.inr ⟨rfl, rfl⟩, hne, hv⟩⟩
  | descend ha hab _ ih =>
      obtain ⟨i, l, r, s, hlr, hs, p, u, l', r', hvisits, hblames⟩ := ih hx
      obtain ⟨hl, hr⟩ := List.getElem?_zip_eq_some.mp hlr
      exact ⟨i :: p, u.comp s, l', r', .component ha hab hl hr hs hvisits, hblames⟩
  | clash ha hb hab =>
      cases hx
      exact ⟨[], ∅, _, _, .here _ _, rfl, rfl, ha, hb, hab⟩
  | done s => cases hx
  | next hu _ _ ih =>
      obtain ⟨i, l, r, s, hlr, hs, hrest⟩ := ih hx
      exact ⟨i + 1, l, r, s, hlr, .next hu hs, hrest⟩
  | @stop s l r eqs e' _ ih =>
      obtain ⟨p, u, l', r', hrest⟩ := ih hx
      exact ⟨0, l, r, s, rfl, .done s, p, u, l', r', hrest⟩

end Unify

/-- What a most general unifier of all that stands to the left of a position is. -/
structure MostGeneralBefore (p : Position) (a b : Ty) (s : Subst) : Prop where
  unifies : Ty.EqualBefore p (s.apply a) (s.apply b)
  general : ∀ u : Subst, Ty.EqualBefore p (u.apply a) (u.apply b) → ∀ t, u.apply t = u.apply (s.apply t)

theorem Unify.Visits.mostGeneralBefore {a b l r : Ty} {p : Position} {s : Subst}
    (h : Unify.Visits a b p s l r) : MostGeneralBefore p a b s := by
  obtain ⟨hsettled, hsolved⟩ := h.solvedBy_iff
  refine ⟨?_, fun u hu t => ?_⟩
  · rw [Subst.apply_eq_assign, Subst.apply_eq_assign]
    refine (hsolved _).mp fun v => ?_
    simpa only [Ty.assign_var_self] using hsettled.idempotent.solvedBy Ty.var v
  · rw [Subst.apply_eq_assign, Subst.apply_eq_assign] at hu
    rw [Subst.apply_eq_assign, Subst.apply_eq_assign]
    exact (((hsolved _).mpr hu).assign_apply t).symm

/-- **A failed unification blames the innermost pair.** There is a position that unification comes to, with bindings
that are the most general ones to make equal all that it has visited before; under these bindings the error is
about the two types at the position. -/
theorem unify_blames_innermost {a b : Ty} {e : TypeError} (h : unify a b = .error e) :
    ∃ (p : Position) (s : Subst) (l r : Ty), Unify.Visits a b p s l r ∧ MostGeneralBefore p a b s ∧
      (s.apply a).at? p = some l ∧ (s.apply b).at? p = some r ∧ Unify.Blames e.fault l r := by
  obtain ⟨p, s, l, r, hvisits, hblames⟩ := (Unify.ends_iff (c := .types a b).mpr h.symm).blamed
  exact ⟨p, s, l, r, hvisits, hvisits.mostGeneralBefore, hvisits.at?_eq.1, hvisits.at?_eq.2, hblames⟩

/-- The second argument of both functions is compared once the variable stands for `(Int, Bool)`, and the blame is
put inside it. -/
theorem unify_blames_innermost_replaced :
    unify (.fn (.var 0) (.fn (.var 0) .int)) (.fn (.tuple [.int, .bool]) (.fn (.tuple [.int, .char]) (.var 0))) =
        .error { fault := .mismatch .bool .char } ∧
      ∃ (p : Position) (s : Subst) (l r : Ty),
        Unify.Visits (.fn (.var 0) (.fn (.var 0) .int))
          (.fn (.tuple [.int, .bool]) (.fn (.tuple [.int, .char]) (.var 0))) p s l r ∧
        MostGeneralBefore p (.fn (.var 0) (.fn (.var 0) .int))
          (.fn (.tuple [.int, .bool]) (.fn (.tuple [.int, .char]) (.var 0))) s ∧
        (s.apply (.fn (.var 0) (.fn (.var 0) .int))).at? p = some l ∧
        (s.apply (.fn (.tuple [.int, .bool]) (.fn (.tuple [.int, .char]) (.var 0)))).at? p = some r ∧
        Unify.Blames (.mismatch .bool .char) l r := by
  have hfail : unify (.fn (.var 0) (.fn (.var 0) .int))
      (.fn (.tuple [.int, .bool]) (.fn (.tuple [.int, .char]) (.var 0))) =
        .error { fault := .mismatch .bool .char } := by cbv
  exact ⟨hfail, unify_blames_innermost hfail⟩

end Polytype
