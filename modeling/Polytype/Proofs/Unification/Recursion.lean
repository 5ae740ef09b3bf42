/-
# Polytype.Proofs.Unification.Recursion — unification as a recursion on types, and why it ends.

`unifyAll` works through one list of equations.  The other way to unify two types is to descend into them:
types with the same head are unified component by component, each pair of components with the bindings of
the pairs before it put in.  Two procedures call each other in this, one for two types and one for the
pass over pairs of components (`Unify.Call`).  `Unify.Ends` is what a call ends with, as a relation, so that
nothing is presupposed about its ending; `Unify.Calls` is which calls a call makes.

Nothing structural goes down in the recursion: a binding may be put into a component many times over, and
the pair that is unified next may then be larger than the types it came from.  But a pair that has been
unified either leaves no bindings, or it takes a variable out of all types that come after it, and it never
brings one in (`smaller_solved`).  So the calls are well founded, by the number of different variables and then
by size (`Unify.calls_wellFounded`).

A call ends with the answer of the list of equations (`Unify.ends_iff`).  What makes them agree is that equations
may be solved in two portions (`unifyAll_append`).
-/
import Mathlib.Logic.Relation
import Polytype.Proofs.Run
import Polytype.Proofs.Unification

namespace Polytype

/-! ## Equations in two portions -/

namespace Equations

theorem apply_append (s : Subst) (eqs eqs' : Equations) :
    apply s (eqs ++ eqs') = apply s eqs ++ apply s eqs' :=
  List.map_append

theorem apply_comp (u s : Subst) (eqs : Equations) : apply (u.comp s) eqs = apply u (apply s eqs) := by
  simp only [apply, List.map_map, Subst.apply_comp]
  rfl

end Equations

theorem Subst.comp_empty (s : Subst) : s.comp ∅ = s :=
  Std.ExtTreeMap.ext_getElem? fun v => by
    simp only [comp, Std.ExtTreeMap.getElem?_union, Std.ExtTreeMap.getElem?_map]
    simp

theorem Subst.empty_comp (s : Subst) : Subst.comp ∅ s = s :=
  Std.ExtTreeMap.ext_getElem? fun v => by
    simp only [comp, Std.ExtTreeMap.getElem?_union, Std.ExtTreeMap.getElem?_map]
    simp

/-- Solves further equations after the bindings `s`. -/
def solveAfter (s : Subst) (eqs : Equations) : Except TypeError Subst :=
  (unifyAll (Equations.apply s eqs)).map (·.comp s)

theorem solveAfter_nil (s : Subst) : solveAfter s [] = .ok s := by
  rw [solveAfter, Equations.apply, List.map_nil, unifyAll]
  exact congrArg Except.ok s.empty_comp

theorem solveAfter_empty (eqs : Equations) : solveAfter ∅ eqs = unifyAll eqs := by
  rw [solveAfter, Equations.apply_empty]
  cases unifyAll eqs with
  | ok u => exact congrArg Except.ok u.comp_empty
  | error e => rfl

/-- Two rounds of bindings are made one after the other. -/
theorem solveAfter_comp (u s : Subst) (eqs : Equations) :
    solveAfter (u.comp s) eqs = (solveAfter u (Equations.apply s eqs)).map (·.comp s) := by
  rw [solveAfter, solveAfter, Equations.apply_comp]
  cases unifyAll (Equations.apply u (Equations.apply s eqs)) with
  | ok w => exact congrArg Except.ok (w.comp_assoc u s).symm
  | error e => rfl

/-- Equations whose images under `s` may be solved in two portions may be so solved after `s`. -/
theorem solveAfter_append {s : Subst} {eqs : Equations}
    (h : ∀ eqs', unifyAll (Equations.apply s eqs ++ eqs') =
      unifyAll (Equations.apply s eqs) >>= fun u => solveAfter u eqs') (eqs' : Equations) :
    solveAfter s (eqs ++ eqs') = solveAfter s eqs >>= fun u => solveAfter u eqs' := by
  rw [solveAfter, solveAfter, Equations.apply_append, h]
  cases unifyAll (Equations.apply s eqs) with
  | ok u => exact (solveAfter_comp u s eqs').symm
  | error e => rfl

/-- Equations may be solved in two portions, the second under the bindings of the first. -/
theorem unifyAll_append (eqs eqs' : Equations) :
    unifyAll (eqs ++ eqs') = unifyAll eqs >>= fun s => solveAfter s eqs' := by
  -- in order: a variable on the left, one on the right, equal heads, different heads
  fun_induction unifyAll eqs generalizing eqs' with
  | case1 => exact (solveAfter_empty eqs').symm
  | case2 v b eqs e he =>
      rw [List.cons_append, unifyAll_var_left, he]
      rfl
  | case3 v b eqs s hs ih =>
      rw [List.cons_append, unifyAll_var_left, hs]
      exact solveAfter_append ih eqs'
  | case4 a v eqs ha e he =>
      rw [List.cons_append, unifyAll_var_right (head?_ne_none_of_not_var ha), he]
      rfl
  | case5 a v eqs ha s hs ih =>
      rw [List.cons_append, unifyAll_var_right (head?_ne_none_of_not_var ha), hs]
      exact solveAfter_append ih eqs'
  | case6 a b eqs ha hb h ih =>
      rw [List.cons_append, unifyAll_heads (head?_ne_none_of_not_var ha) (head?_ne_none_of_not_var hb),
        if_pos h, ← List.append_assoc, ih]
  | case7 a b eqs ha hb h =>
      rw [List.cons_append, unifyAll_heads (head?_ne_none_of_not_var ha) (head?_ne_none_of_not_var hb),
        if_neg h]
      rfl

/-- The first equation, and then the others. -/
theorem solveAfter_cons (s : Subst) (l r : Ty) (eqs : Equations) :
    solveAfter s ((l, r) :: eqs) =
      unify (s.apply l) (s.apply r) >>= fun u => solveAfter (u.comp s) eqs := by
  have hsplit := unifyAll_append [(s.apply l, s.apply r)] (Equations.apply s eqs)
  rw [solveAfter, show Equations.apply s ((l, r) :: eqs) =
    [(s.apply l, s.apply r)] ++ Equations.apply s eqs from rfl, hsplit, ← unify]
  cases unify (s.apply l) (s.apply r) with
  | ok u => exact (solveAfter_comp u s eqs).symm
  | error e => rfl

/-! ## One pair of types at a time -/

section Pair

variable {a b : Ty}

theorem bind_solveAfter_nil (x : Except TypeError Subst) : (x >>= fun s => solveAfter s []) = x := by
  cases x with
  | ok s => exact solveAfter_nil s
  | error e => rfl

theorem unify_var_left (v : TyVar) (b : Ty) : unify (.var v) b = bindVar v b := by
  rw [unify, unifyAll_var_left]
  exact bind_solveAfter_nil _

theorem unify_var_right (ha : a.head? ≠ none) (v : TyVar) : unify a (.var v) = bindVar v a := by
  rw [unify, unifyAll_var_right ha]
  exact bind_solveAfter_nil _

theorem unify_of_head_eq (ha : a.head? ≠ none) (h : a.head? = b.head?) :
    unify a b = solveAfter ∅ (a.children.zip b.children) := by
  rw [unify, unifyAll_heads ha (h ▸ ha), if_pos h, List.append_nil, solveAfter_empty]

theorem unify_of_head_ne (ha : a.head? ≠ none) (hb : b.head? ≠ none) (h : a.head? ≠ b.head?) :
    unify a b = (Fault.mismatch a b).raise := by
  rw [unify, unifyAll_heads ha hb, if_neg h]

end Pair

/-! ## What a solved pair leaves -/

theorem Subst.eq_empty_of_forall_notMem {s : Subst} (h : ∀ v, v ∉ s) : s = ∅ :=
  Std.ExtTreeMap.ext_getElem? fun v => by simp [Std.ExtTreeMap.getElem?_eq_none (h v)]

/-- Once a pair is solved and its bindings are put into the equations after it, these have fewer variables
than all had before, or the same and fewer nodes. -/
theorem smaller_solved {a b : Ty} {u : Subst} (h : unify a b = .ok u) (eqs : Equations) :
    Equations.Smaller (Equations.measure (Equations.apply u eqs)) (Equations.measure ((a, b) :: eqs)) := by
  have hpair : (a, b) ∈ (a, b) :: eqs := List.mem_cons_self
  have hu : u.Settled (Equations.scope ((a, b) :: eqs)) :=
    unify_settled h (Equations.within_scope hpair).1 (Equations.within_scope hpair).2
  have hlive : (Equations.apply u eqs).scope ⊆ live (Equations.scope ((a, b) :: eqs)) u :=
    Equations.scope_apply_subset hu (Equations.scope_tail_subset _ eqs)
  by_cases hbinds : ∃ v, v ∈ u
  · -- a variable that the pair has bound is gone
    obtain ⟨v, hv⟩ := hbinds
    refine .left _ _ (countDistinct_lt_of_subset (v := v) ?_ ?_ ?_)
    · exact fun w hw => (hlive hw).1
    · exact fun hw => (hlive hw).2 hv
    · exact hu.within v (Or.inl hv)
  · obtain rfl := Subst.eq_empty_of_forall_notMem (not_exists.mp hbinds)
    rw [Equations.apply_empty]
    refine Equations.smaller_of_subset ?_ ?_
    · rw [Equations.vars_cons]
      exact List.subset_append_right _ _
    · have := a.size_pos
      rw [Equations.size_cons]
      omega

/-! ## The recursion -/

namespace Unify

/-- What the recursion is called on: two types, or pairs of components that are to be unified in turn after
the bindings `s`. -/
inductive Call where
  | types (a b : Ty)
  | components (s : Subst) (eqs : Equations)

/-- The call ends with the answer. -/
inductive Ends : Call → Except TypeError Subst → Prop
  | bindLeft (v : TyVar) (b : Ty) : Ends (.types (.var v) b) (bindVar v b)
  | bindRight {a : Ty} (v : TyVar) : a.head? ≠ none → Ends (.types a (.var v)) (bindVar v a)
  | descend {a b : Ty} {x : Except TypeError Subst} : a.head? ≠ none → a.head? = b.head? →
      Ends (.components ∅ (a.children.zip b.children)) x → Ends (.types a b) x
  | clash {a b : Ty} : a.head? ≠ none → b.head? ≠ none → a.head? ≠ b.head? →
      Ends (.types a b) (Fault.mismatch a b).raise
  | done (s : Subst) : Ends (.components s []) (.ok s)
  | next {s u : Subst} {l r : Ty} {eqs : Equations} {x : Except TypeError Subst} :
      Ends (.types (s.apply l) (s.apply r)) (.ok u) → Ends (.components (u.comp s) eqs) x →
      Ends (.components s ((l, r) :: eqs)) x
  | stop {s : Subst} {l r : Ty} {eqs : Equations} {e : TypeError} :
      Ends (.types (s.apply l) (s.apply r)) (.error e) → Ends (.components s ((l, r) :: eqs)) (.error e)

/-- The first call is made by the second one, or is what is left of it after its first pair. -/
inductive Calls : Call → Call → Prop
  | descend {a b : Ty} : a.head? ≠ none → a.head? = b.head? →
      Calls (.components ∅ (a.children.zip b.children)) (.types a b)
  | first (s : Subst) (l r : Ty) (eqs : Equations) :
      Calls (.types (s.apply l) (s.apply r)) (.components s ((l, r) :: eqs))
  | rest {s u : Subst} {l r : Ty} (eqs : Equations) : Ends (.types (s.apply l) (s.apply r)) (.ok u) →
      Calls (.components (u.comp s) eqs) (.components s ((l, r) :: eqs))

/-! ## Its answers -/

/-- What the list of equations gives for a call. -/
def Call.answer : Call → Except TypeError Subst
  | .types a b => unify a b
  | .components s eqs => solveAfter s eqs

/-- A call that ends does so with the answer of the list of equations. -/
theorem Ends.eq_answer {c : Call} {x : Except TypeError Subst} (h : Ends c x) : x = c.answer := by
  induction h with
  | bindLeft v b => exact (unify_var_left v b).symm
  | bindRight v ha => exact (unify_var_right ha v).symm
  | descend ha hab _ ih => exact ih.trans (unify_of_head_eq ha hab).symm
  | clash ha hb hab => exact (unify_of_head_ne ha hb hab).symm
  | done s => exact (solveAfter_nil s).symm
  | next _ _ ihu ihx =>
      rw [ihx, Call.answer, Call.answer, solveAfter_cons, show unify _ _ = _ from ihu.symm]
      rfl
  | stop _ ih =>
      rw [Call.answer, solveAfter_cons, show unify _ _ = _ from ih.symm]
      rfl

/-! ## Why it ends -/

/-- How much is left to do in a call: the measure of its equations, the bindings having been put in.  A single
pair comes before the pass that it is the first pair of. -/
def Call.measure : Call → (Nat × Nat) × Nat
  | .types a b => (Equations.measure [(a, b)], 0)
  | .components s eqs => (Equations.measure (Equations.apply s eqs), 1)

theorem Calls.smaller {c c' : Call} (h : Calls c c') :
    Prod.Lex Equations.Smaller (· < ·) c.measure c'.measure := by
  cases h with
  | @descend a b ha hab =>
      rw [Call.measure, Call.measure, Equations.apply_empty]
      have hsmaller := Equations.smaller_children a b []
      rw [List.append_nil] at hsmaller
      exact .left _ _ hsmaller
  | first s l r eqs =>
      cases eqs with
      | nil => exact .right _ Nat.zero_lt_one
      | cons e eqs =>
          have happly : Equations.apply s ((l, r) :: e :: eqs) =
              (s.apply l, s.apply r) :: (s.apply e.1, s.apply e.2) :: Equations.apply s eqs := rfl
          rw [Call.measure, Call.measure, happly]
          refine .left _ _ (Equations.smaller_of_subset ?_ ?_)
          · intro v hv
            rw [Equations.vars_cons] at hv ⊢
            exact List.mem_append_left _ (by simpa [Equations.vars] using hv)
          · have := (s.apply e.1).size_pos
            simp only [Equations.size]
            omega
  | @rest s u l r eqs hu =>
      rw [Call.measure, Call.measure, Equations.apply_comp]
      exact .left _ _ (smaller_solved hu.eq_answer.symm (Equations.apply s eqs))

theorem calls_wellFounded : WellFounded Calls := by
  have hnat : WellFounded (α := Nat) (· < ·) := Nat.lt_wfRel.wf
  exact Subrelation.wf Calls.smaller (InvImage.wf Call.measure ((hnat.prod_lex hnat).prod_lex hnat))

/-- Every call ends. -/
theorem exists_ends (c : Call) : ∃ x, Ends c x := by
  induction c using calls_wellFounded.induction with
  | _ c ih =>
      cases c with
      | types a b =>
          by_cases ha : a.head? = none
          · obtain ⟨v, rfl⟩ := Ty.head?_eq_none_iff.mp ha
            exact ⟨_, .bindLeft v b⟩
          by_cases hb : b.head? = none
          · obtain ⟨v, rfl⟩ := Ty.head?_eq_none_iff.mp hb
            exact ⟨_, .bindRight v ha⟩
          by_cases hab : a.head? = b.head?
          · obtain ⟨x, hx⟩ := ih _ (.descend ha hab)
            exact ⟨x, .descend ha hab hx⟩
          · exact ⟨_, .clash ha hb hab⟩
      | components s eqs =>
          cases eqs with
          | nil => exact ⟨_, .done s⟩
          | cons e eqs =>
              obtain ⟨x, hx⟩ := ih _ (.first s e.1 e.2 eqs)
              cases x with
              | error e => exact ⟨_, .stop hx⟩
              | ok u =>
                  obtain ⟨y, hy⟩ := ih _ (.rest eqs hx)
                  exact ⟨y, .next hx hy⟩

/-- Every call ends, with the answer of the list of equations and no other. -/
theorem ends_iff {c : Call} {x : Except TypeError Subst} : Ends c x ↔ x = c.answer := by
  refine ⟨Ends.eq_answer, fun hx => ?_⟩
  obtain ⟨y, hy⟩ := exists_ends c
  rwa [hx, ← hy.eq_answer]

/-! ## Calls on larger types -/

/-- The recursion may come to a type that holds another one twice, where it has begun with one copy of it. -/
theorem calls_doubled {v w : TyVar} {t : Ty} (hv : v ∉ t.vars) (hw : w ≠ v) :
    Relation.TransGen Calls (.types (.fn t t) (.var w))
      (.types (.tuple [.var v, .fn (.var v) (.var v)]) (.tuple [t, .var w])) := by
  have hne : t ≠ .var v := by
    rintro rfl
    exact hv (by simp [Ty.vars])
  have hbind : Ends (.types (Subst.apply ∅ (.var v)) (Subst.apply ∅ t)) (.ok (.single v t)) := by
    rw [ends_iff, Call.answer, Subst.apply_empty, Subst.apply_empty, unify_var_left]
    simp [bindVar, hne, hv]
  have hfirst := Calls.first (Subst.comp (.single v t) ∅) (.fn (.var v) (.var v)) (.var w) []
  simp only [Subst.comp_empty, Subst.apply_fn, Subst.apply_var, Subst.image_single, if_true, if_neg hw]
    at hfirst
  have hrest := Calls.rest [(.fn (.var v) (.var v), .var w)] hbind
  rw [Subst.comp_empty] at hrest
  have hdescend : Calls _ (.types (.tuple [.var v, .fn (.var v) (.var v)]) (.tuple [t, .var w])) :=
    .descend (by simp [Ty.head?]) (by simp [Ty.head?])
  exact .head hfirst (.head hrest (.single hdescend))

end Unify

theorem Ty.sizeList_replicate (n : Nat) (t : Ty) : Ty.sizeList (List.replicate n t) = n * t.size := by
  induction n with
  | zero => simp [sizeList]
  | succ n ih => rw [List.replicate_succ, sizeList, ih, Nat.succ_mul, Nat.add_comm]

/-- **Unification by recursion on types terminates.** No chain of calls is infinite, and every call ends, with the
answer of `unify`; although the recursion may come to types that are larger, by any number of nodes, than
those it has begun with. -/
theorem unify_terminates :
    WellFounded Unify.Calls ∧
      (∀ (a b : Ty) (x : Except TypeError Subst), Unify.Ends (.types a b) x ↔ x = unify a b) ∧
      ∀ n : Nat, ∃ a b l r : Ty, Relation.TransGen Unify.Calls (.types l r) (.types a b) ∧
        a.size + b.size + n < l.size + r.size := by
  refine ⟨Unify.calls_wellFounded, fun a b x => Unify.ends_iff, fun n => ?_⟩
  have hv : (0 : TyVar) ∉ (Ty.tuple (List.replicate (n + 6) .int)).vars := by
    rw [Ty.mem_vars_tuple]
    rintro ⟨t, ht, hv⟩
    rw [List.eq_of_mem_replicate ht] at hv
    exact List.not_mem_nil hv
  refine ⟨_, _, _, _, Unify.calls_doubled hv (w := 1) (by decide), ?_⟩
  simp only [Ty.size, Ty.sizeList, Ty.sizeList_replicate]
  omega

end Polytype
