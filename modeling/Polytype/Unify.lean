/-
# Polytype.Unify — most general unifiers.

`unifyAll` solves a list of equations between types from left to right.  A variable on either side is
bound to the other side, in all the equations still to come; two types with the same head are
replaced by the equations between their children; anything else is a mismatch, reported with the two
types as the bindings so far have left them.

The bindings can make the remaining equations larger.  What they cannot do is keep the number of
variables: binding a variable removes it from everything that is left.  So the pair of the number of
distinct variables and the number of nodes goes down lexicographically (`Equations.measure`).
-/
import Polytype.Subst
import Polytype.TypeError

namespace Polytype

/-- The number of different variables in a list. -/
def countDistinct : List TyVar → Nat
  | [] => 0
  | v :: vs => if v ∈ vs then countDistinct vs else countDistinct vs + 1

theorem countDistinct_filter_ne {v : TyVar} {vs : List TyVar} (h : v ∈ vs) :
    countDistinct (vs.filter (· ≠ v)) + 1 = countDistinct vs := by
  induction vs with
  | nil => simp at h
  | cons w vs ih =>
    by_cases hwv : w = v
    · subst hwv
      by_cases hw : w ∈ vs
      · simpa [countDistinct, hw] using ih hw
      · have : vs.filter (· ≠ w) = vs := by
          rw [List.filter_eq_self]
          intro x hx
          simpa using fun e : x = w => hw (e ▸ hx)
        simp only [ne_eq, decide_not] at this
        simp [countDistinct, hw, this]
    · have hv : v ∈ vs := by simpa [Ne.symm hwv] using h
      have := ih hv
      simp only [ne_eq, decide_not] at this
      by_cases hw : w ∈ vs
      · simp [countDistinct, hwv, hw, this]
      · simp [countDistinct, hwv, hw, ← this]

theorem countDistinct_le_of_subset {vs ws : List TyVar} (h : vs ⊆ ws) :
    countDistinct vs ≤ countDistinct ws := by
  induction vs generalizing ws with
  | nil => exact Nat.zero_le _
  | cons v vs ih =>
    by_cases hv : v ∈ vs
    · simpa [countDistinct, hv] using ih fun x hx => h (List.mem_cons_of_mem _ hx)
    · have hvw : v ∈ ws := h List.mem_cons_self
      have hsub : vs ⊆ ws.filter (· ≠ v) := fun x hx => by
        have hne : x ≠ v := fun e => hv (e ▸ hx)
        simpa [hne] using h (List.mem_cons_of_mem _ hx)
      have := ih hsub
      have := countDistinct_filter_ne hvw
      simp only [countDistinct, hv, if_false]
      omega

/-- A list that misses one of the variables has fewer of them. -/
theorem countDistinct_lt_of_subset {v : TyVar} {vs ws : List TyVar} (h : vs ⊆ ws) (hv : v ∉ vs)
    (hw : v ∈ ws) : countDistinct vs < countDistinct ws := by
  have hle : countDistinct vs ≤ countDistinct (ws.filter (· ≠ v)) :=
    countDistinct_le_of_subset fun x hx => by
      have hne : x ≠ v := fun e => hv (e ▸ hx)
      simpa [hne] using h hx
  have := countDistinct_filter_ne hw
  omega

/-! ## Equations between types -/

/-- Pairs of types that are to become equal. -/
abbrev Equations := List (Ty × Ty)

namespace Equations

/-- All variables of the equations. -/
def vars (eqs : Equations) : List TyVar := eqs.flatMap fun e => e.1.vars ++ e.2.vars

/-- The number of nodes of the equations. -/
def size : Equations → Nat
  | [] => 0
  | (a, b) :: eqs => a.size + b.size + size eqs

/-- Substitution in both sides of every equation. -/
def apply (s : Subst) (eqs : Equations) : Equations :=
  eqs.map fun e => (s.apply e.1, s.apply e.2)

/-- The number of different variables, and then the number of nodes. -/
def measure (eqs : Equations) : Nat × Nat := (countDistinct (vars eqs), size eqs)

/-- The order in which solving goes down. -/
abbrev Smaller (p q : Nat × Nat) : Prop := Prod.Lex (· < ·) (· < ·) p q

@[simp]
theorem vars_cons (a b : Ty) (eqs : Equations) :
    vars ((a, b) :: eqs) = a.vars ++ b.vars ++ vars eqs := by
  simp [vars]

@[simp]
theorem vars_append (eqs eqs' : Equations) : vars (eqs ++ eqs') = vars eqs ++ vars eqs' := by
  simp [vars]

@[simp]
theorem size_cons (a b : Ty) (eqs : Equations) :
    size ((a, b) :: eqs) = a.size + b.size + size eqs := rfl

@[simp]
theorem size_append (eqs eqs' : Equations) : size (eqs ++ eqs') = size eqs + size eqs' := by
  induction eqs with
  | nil => simp [size]
  | cons e eqs ih =>
    simp only [List.cons_append, size, ih]
    omega

@[simp]
theorem apply_empty (eqs : Equations) : apply ∅ eqs = eqs := by
  simp [apply]

theorem size_zip_le (ts us : List Ty) :
    size (ts.zip us) ≤ Ty.sizeList ts + Ty.sizeList us := by
  induction ts generalizing us with
  | nil => simp [size]
  | cons t ts ih =>
    cases us with
    | nil => simp [size]
    | cons u us =>
      have := ih us
      simp only [List.zip_cons_cons, size_cons, Ty.sizeList]
      omega

theorem vars_zip_subset (ts us : List Ty) :
    vars (ts.zip us) ⊆ ts.flatMap Ty.vars ++ us.flatMap Ty.vars := by
  intro v hv
  simp only [vars, List.mem_flatMap, List.mem_append, Prod.exists] at hv ⊢
  obtain ⟨t, u, htu, hv | hv⟩ := hv
  · exact .inl ⟨t, (List.of_mem_zip htu).1, hv⟩
  · exact .inr ⟨u, (List.of_mem_zip htu).2, hv⟩

theorem smaller_of_subset {eqs eqs' : Equations} (hv : vars eqs ⊆ vars eqs')
    (hs : size eqs < size eqs') : Smaller (measure eqs) (measure eqs') := by
  have hle := countDistinct_le_of_subset hv
  rcases Nat.lt_or_eq_of_le hle with h | h
  · exact .left _ _ h
  · simp only [measure, h]
    exact .right _ hs

/-- Replacing an equation between two types by the equations between their children. -/
theorem smaller_children (a b : Ty) (eqs : Equations) :
    Smaller (measure (a.children.zip b.children ++ eqs)) (measure ((a, b) :: eqs)) := by
  refine smaller_of_subset ?_ ?_
  · intro v hv
    simp only [vars_append, vars_cons, List.mem_append] at hv ⊢
    rcases hv with hv | hv
    · rcases List.mem_append.1 (vars_zip_subset _ _ hv) with hv | hv
      · exact .inl (.inl (Ty.vars_children_subset a hv))
      · exact .inl (.inr (Ty.vars_children_subset b hv))
    · exact .inr hv
  · have := size_zip_le a.children b.children
    have := a.size_eq_children
    have := b.size_eq_children
    simp only [size_append, size_cons]
    omega

end Equations

/-! ## Binding a variable -/

/-- The most general way to make a variable equal to a type.  A variable equals itself as it is; it
can equal no other type in which it occurs. -/
def bindVar (v : TyVar) (t : Ty) : Except TypeError Subst :=
  if t = .var v then .ok ∅
  else if t.occurs v then (Fault.occursCheck v t).raise
  else .ok (Subst.single v t)

theorem bindVar_eq_ok {v : TyVar} {t : Ty} {s : Subst} (h : bindVar v t = .ok s) :
    (t = .var v ∧ s = ∅) ∨ (v ∉ t.vars ∧ s = Subst.single v t) := by
  simp only [bindVar] at h
  split at h
  · next ht => exact .inl ⟨ht, by simpa using h.symm⟩
  · split at h
    · simp [Fault.raise] at h
    · next ho => exact .inr ⟨by simpa using ho, by simpa using h.symm⟩

/-- Binding one side of the first equation to the other leaves a smaller problem. -/
theorem smaller_bindVar {v : TyVar} {t : Ty} {s : Subst} (h : bindVar v t = .ok s) {a b : Ty}
    (eqs : Equations) (hab : (a = .var v ∧ b = t) ∨ (a = t ∧ b = .var v)) :
    Equations.Smaller (Equations.measure (Equations.apply s eqs))
      (Equations.measure ((a, b) :: eqs)) := by
  have hvars : ∀ w, w ∈ Equations.vars ((a, b) :: eqs) ↔
      w = v ∨ w ∈ t.vars ∨ w ∈ Equations.vars eqs := by
    intro w
    rcases hab with ⟨rfl, rfl⟩ | ⟨rfl, rfl⟩ <;> simp [Ty.vars, or_left_comm]
  rcases bindVar_eq_ok h with ⟨_, rfl⟩ | ⟨hv, rfl⟩
  · refine Equations.smaller_of_subset ?_ ?_
    · intro w hw
      exact (hvars w).2 (.inr (.inr (by simpa using hw)))
    · have := a.size_pos
      simp only [Equations.apply_empty, Equations.size_cons]
      omega
  · have hmem : ∀ w, w ∈ Equations.vars (Equations.apply (.single v t) eqs) →
        w ≠ v ∧ (w ∈ t.vars ∨ w ∈ Equations.vars eqs) := by
      intro w hw
      simp only [Equations.vars, Equations.apply, List.mem_flatMap, List.mem_map,
        List.mem_append] at hw
      obtain ⟨_, ⟨e, he, rfl⟩, hw⟩ := hw
      have hin : ∀ u : Ty, (∀ x ∈ u.vars, x ∈ Equations.vars eqs) →
          w ∈ ((Subst.single v t).apply u).vars →
          w ≠ v ∧ (w ∈ t.vars ∨ w ∈ Equations.vars eqs) := by
        intro u hu hwu
        rcases Subst.mem_vars_apply_single.1 hwu with ⟨hw, hne⟩ | ⟨_, hw⟩
        · exact ⟨hne, .inr (hu w hw)⟩
        · exact ⟨fun e => hv (e ▸ hw), .inl hw⟩
      rcases hw with hw | hw
      · exact hin e.1 (fun x hx => List.mem_flatMap.2 ⟨e, he, by simp [hx]⟩) hw
      · exact hin e.2 (fun x hx => List.mem_flatMap.2 ⟨e, he, by simp [hx]⟩) hw
    refine .left _ _ (countDistinct_lt_of_subset (v := v) ?_ ?_ ?_)
    · exact fun w hw => (hvars w).2 (.inr (hmem w hw).2)
    · exact fun hw => (hmem v hw).1 rfl
    · exact (hvars v).2 (.inl rfl)

/-! ## Solving -/

/-- The most general substitution that makes the two sides of every equation equal. -/
def unifyAll (eqs : Equations) : Except TypeError Subst :=
  match eqs with
  | [] => .ok ∅
  | (.var v, b) :: eqs =>
    match _h : bindVar v b with
    | .error e => .error e
    | .ok s => (unifyAll (Equations.apply s eqs)).map (·.comp s)
  | (a, .var v) :: eqs =>
    match _h : bindVar v a with
    | .error e => .error e
    | .ok s => (unifyAll (Equations.apply s eqs)).map (·.comp s)
  | (a, b) :: eqs =>
    if a.head? = b.head? then unifyAll (a.children.zip b.children ++ eqs)
    else (Fault.mismatch a b).raise
termination_by Equations.measure eqs
decreasing_by
  · exact smaller_bindVar _h _ (.inl ⟨rfl, rfl⟩)
  · exact smaller_bindVar _h _ (.inr ⟨rfl, rfl⟩)
  · exact Equations.smaller_children a b eqs

/-- A most general unifier of two types. -/
def unify (a b : Ty) : Except TypeError Subst := unifyAll [(a, b)]

end Polytype
