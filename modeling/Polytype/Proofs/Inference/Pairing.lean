/-
# Polytype.Proofs.Inference.Pairing — two runs in environments that differ in names.

Two runs of inference on expressions that differ in names have different environments.  They agree on the names
that correspond (`Env.Paired`), but a name that is hidden in the one may be in scope in the other, so they need
not have the same free variables, and these are what `let` goes by when it generalizes.

What saves the comparison is that a run sees only the bindings that its own names lead to.  Its type and its
substitution are over the variables that are free in these (`Env.visible`) and over new ones; and a variable of
this kind is free in either environment, after the run, exactly when it is free in a binding that the two have
in common (`Paired.generalize_eq`).  For this the variables of both environments, also the quantified ones, have
to be older than the run (`Env.Bounded`).
-/
import Polytype.Proofs.Inference.PatternNames

namespace Polytype

/-! ## Corresponding names -/

/-- Which names of one expression correspond to which names of another one. -/
abbrev Names := String → String → Prop

namespace Names

/-- The correspondence below binders `a` and `b` that stand at the same place.  Each hides what had its name
before. -/
def bind (N : Names) (a b : String) : Names := fun x y => x = a ∧ y = b ∨ x ≠ a ∧ y ≠ b ∧ N x y

/-- The correspondence below pairs of binders, of which a later one hides an earlier one. -/
def bindAll (N : Names) (pairs : List (String × String)) : Names :=
  pairs.foldl (fun N pair => bind N pair.1 pair.2) N

variable {N M : Names}

/-- Names that have a counterpart correspond to themselves. -/
def Fixes (N M : Names) : Prop := ∀ x y, N x y → M x x

/-- Names that have a counterpart correspond to themselves, and nothing else does. -/
def diagonal (N : Names) : Names := fun x z => x = z ∧ ∃ y, N x y

theorem fixes_diagonal (N : Names) : Fixes N N.diagonal := fun _ y hxy => ⟨rfl, y, hxy⟩

theorem Fixes.bind (h : Fixes N M) (a b : String) : Fixes (N.bind a b) (M.bind a a) := by
  rintro x y (⟨rfl, -⟩ | ⟨hx, -, hxy⟩)
  · exact Or.inl ⟨rfl, rfl⟩
  · exact Or.inr ⟨hx, hx, h x y hxy⟩

theorem Fixes.bindAll (h : Fixes N M) {xs ys : List String} (hlen : xs.length = ys.length) :
    Fixes (N.bindAll (xs.zip ys)) (M.bindAll (xs.zip xs)) := by
  induction xs generalizing ys N M with
  | nil => exact h
  | cons x xs ih =>
      cases ys with
      | nil => cases hlen
      | cons y ys => exact ih (h.bind x y) (Nat.succ.inj hlen)

end Names

/-! ## Variables drawn so far -/

/-- The variables drawn before `n`. -/
def drawn (n : TyVar) : Set TyVar := {v | v < n}

theorem below_drawn (n : TyVar) : Below (drawn n) n := fun _ hv => hv

theorem drawn_mono {n n' : TyVar} (h : n ≤ n') : drawn n ⊆ drawn n' := fun _ hv => Int.lt_of_lt_of_le hv h

theorem grow_subset_drawn {W : Set TyVar} {n n' : TyVar} (hW : Below W n) (h : n ≤ n') :
    grow W n n' ⊆ drawn n' := hW.grow h

/-- What the substitution puts for a variable is the variable itself, or over variables drawn before `n`. -/
def Subst.Bounded (n : TyVar) (s : Subst) : Prop := ∀ v, ∀ w ∈ (s.image v).vars, w = v ∨ w < n

/-- All variables of the scheme have been drawn before `n`, also those that it quantifies. -/
structure Scheme.Bounded (n : TyVar) (σ : Scheme) : Prop where
  body : σ.body.Within (drawn n)
  quantified : ∀ v ∈ σ.quantified, v < n

/-- All variables of the environment have been drawn before `n`. -/
def Env.Bounded (n : TyVar) (Γ : Env) : Prop := ∀ (x : String) (σ : Scheme), Γ[x]? = some σ → σ.Bounded n

namespace Subst.Bounded

variable {n n' : TyVar} {s u : Subst}

theorem empty (n : TyVar) : Subst.Bounded n ∅ := fun v w hw => Or.inl (by simpa [Ty.vars] using hw)

theorem mono (h : s.Bounded n) (hn : n ≤ n') : s.Bounded n' := fun v w hw =>
  (h v w hw).imp_right fun hlt => Int.lt_of_lt_of_le hlt hn

theorem of_settled (h : s.Settled (drawn n)) : s.Bounded n := by
  intro v w hw
  by_cases hv : v ∈ s
  · exact Or.inr (h.within w (Or.inr ⟨v, hv, hw⟩))
  · rw [image_of_notMem hv] at hw
    exact Or.inl (by simpa [Ty.vars] using hw)

theorem comp (hu : u.Bounded n) (hs : s.Bounded n) : (u.comp s).Bounded n := by
  intro v w hw
  rw [image_comp] at hw
  obtain ⟨x, hx, hw⟩ := mem_vars_apply.mp hw
  rcases hu x w hw with rfl | hlt
  · exact hs v w hx
  · exact Or.inr hlt

theorem apply_within (hs : s.Bounded n) {t : Ty} (ht : t.Within (drawn n)) :
    (s.apply t).Within (drawn n) := by
  intro w hw
  obtain ⟨v, hv, hw⟩ := mem_vars_apply.mp hw
  rcases hs v w hw with rfl | hlt
  · exact ht w hv
  · exact hlt

theorem unify {a b : Ty} (ha : a.Within (drawn n)) (hb : b.Within (drawn n))
    (h : Polytype.unify a b = .ok u) : u.Bounded n :=
  .of_settled (unify_settled h ha hb)

theorem of_threaded {W : Set TyVar} (h : s.Threaded W n n') : s.Bounded n' :=
  .of_settled (h.settled.mono (grow_subset_drawn h.below h.le))

end Subst.Bounded

namespace Scheme.Bounded

variable {n n' : TyVar} {σ : Scheme} {s : Subst}

theorem mono (h : σ.Bounded n) (hn : n ≤ n') : σ.Bounded n' :=
  ⟨h.body.mono (drawn_mono hn), fun v hv => Int.lt_of_lt_of_le (h.quantified v hv) hn⟩

theorem apply (h : σ.Bounded n) (hs : s.Bounded n) : (σ.apply s).Bounded n := by
  refine ⟨fun w hw => ?_, h.quantified⟩
  obtain ⟨v, hv, hw⟩ := Subst.mem_vars_apply.mp hw
  rw [Subst.image_without] at hw
  have hvn : v < n := h.body v hv
  split at hw
  · obtain rfl : w = v := by simpa [Ty.vars] using hw
    exact hvn
  · rcases hs v w hw with rfl | hlt
    · exact hvn
    · exact hlt

theorem generalize {t : Ty} (ht : t.Within (drawn n)) (Γ : Env) : (Γ.generalize t).Bounded n :=
  ⟨ht, fun v hv => ht v (Env.mem_quantified_generalize.mp hv).1⟩

end Scheme.Bounded

namespace Env

variable {n n' : TyVar} {Γ Γ' : Env} {s : Subst} {N : Names}

namespace Bounded

theorem freeIn (h : Γ.Bounded n) : Γ.FreeIn (drawn n) := by
  rintro v ⟨x, σ, hσ, hv, -⟩
  exact (h x σ hσ).body v hv

theorem mono (h : Γ.Bounded n) (hn : n ≤ n') : Γ.Bounded n' := fun x σ hσ => (h x σ hσ).mono hn

theorem apply (h : Γ.Bounded n) (hs : s.Bounded n) : (Γ.apply s).Bounded n := by
  intro x τ hτ
  obtain ⟨σ, hσ, rfl⟩ := getElem?_apply_iff.mp hτ
  exact (h x σ hσ).apply hs

theorem insert (h : Γ.Bounded n) {σ : Scheme} (hσ : σ.Bounded n) (x : String) :
    Bounded n (Γ.insert x σ) := by
  intro y τ hτ
  rcases getElem?_insert_iff.mp hτ with ⟨-, rfl⟩ | ⟨-, hy⟩
  · exact hσ
  · exact h y τ hy

end Bounded

/-! ## Environments that agree on corresponding names -/

/-- Corresponding names are bound alike, or are the same and free; all variables have been drawn before
`n`. -/
structure Paired (N : Names) (n : TyVar) (Γ Γ' : Env) : Prop where
  lookup : ∀ x y, N x y → Γ[x]? = Γ'[y]?
  unbound : ∀ x y, N x y → Γ[x]? = none → x = y
  left : Γ.Bounded n
  right : Γ'.Bounded n

namespace Paired

theorem empty (n : TyVar) : Paired Eq n ∅ ∅ := by
  refine ⟨?_, fun x y hxy _ => hxy, ?_, ?_⟩
  · rintro x y rfl
    rfl
  · intro x σ hσ
    simp at hσ
  · intro x σ hσ
    simp at hσ

theorem mono (h : Paired N n Γ Γ') (hn : n ≤ n') : Paired N n' Γ Γ' :=
  ⟨h.lookup, h.unbound, h.left.mono hn, h.right.mono hn⟩

theorem apply (h : Paired N n Γ Γ') (hs : s.Bounded n) : Paired N n (Γ.apply s) (Γ'.apply s) := by
  refine ⟨fun x y hxy => ?_, fun x y hxy hnone => h.unbound x y hxy ?_, h.left.apply hs, h.right.apply hs⟩
  · rw [Env.apply, Env.apply, Std.ExtTreeMap.getElem?_map, Std.ExtTreeMap.getElem?_map, h.lookup x y hxy]
  · simpa [Env.apply, Std.ExtTreeMap.getElem?_map] using hnone

/-- The environments after a step of both runs. -/
theorem next (h : Paired N n Γ Γ') (hn : n ≤ n') (hs : s.Bounded n') :
    Paired N n' (Γ.apply s) (Γ'.apply s) := (h.mono hn).apply hs

theorem insert (h : Paired N n Γ Γ') {σ : Scheme} (hσ : σ.Bounded n) (a b : String) :
    Paired (N.bind a b) n (Γ.insert a σ) (Γ'.insert b σ) := by
  refine ⟨?_, ?_, h.left.insert hσ a, h.right.insert hσ b⟩
  · rintro x y (⟨rfl, rfl⟩ | ⟨hx, hy, hxy⟩)
    · simp
    · simpa [Std.ExtTreeMap.getElem?_insert, hx.symm, hy.symm] using h.lookup x y hxy
  · rintro x y (⟨rfl, rfl⟩ | ⟨hx, hy, hxy⟩) hnone
    · simp at hnone
    · exact h.unbound x y hxy (by simpa [Std.ExtTreeMap.getElem?_insert, hx.symm] using hnone)

theorem bindTy (h : Paired N n Γ Γ') {t : Ty} (ht : t.Within (drawn n)) (a b : String) :
    Paired (N.bind a b) n (Γ.bindTy a t) (Γ'.bindTy b t) :=
  h.insert ⟨ht, by simp [Scheme.mono]⟩ a b

theorem bindAll (h : Paired N n Γ Γ') {bs : List (String × Ty)} (hbs : ∀ b ∈ bs, b.2.Within (drawn n))
    {ys : List String} (hlen : bs.length = ys.length) :
    Paired (N.bindAll ((bs.map Prod.fst).zip ys)) n (Γ.bindAll bs)
      (Γ'.bindAll (ys.zip (bs.map Prod.snd))) := by
  induction bs generalizing ys N Γ Γ' with
  | nil => simpa [Names.bindAll, Env.bindAll] using h
  | cons b bs ih =>
      obtain ⟨hb, hbs⟩ := List.forall_mem_cons.mp hbs
      cases ys with
      | nil => cases hlen
      | cons y ys => exact ih (h.bindTy hb b.1 y) hbs (Nat.succ.inj hlen)

/-- The names of two patterns that differ in nothing else go with the same types. -/
theorem bindPattern (h : Paired N n Γ Γ') {p p' : Pattern} (hpattern : p.unnamed = p'.unnamed)
    {pt : PatternTyping} (hnames : pt.bindings.map Prod.fst = p.binders)
    (hpt : ∀ b ∈ pt.bindings, b.2.Within (drawn n)) (hs : s.Bounded n) :
    Paired (N.bindAll (p.binders.zip p'.binders)) n
      (Γ.bindAll (pt.bindings.map fun b => (b.1, s.apply b.2)))
      (Γ'.bindAll ((pt.relabel p'.binders).bindings.map fun b => (b.1, s.apply b.2))) := by
  have hlen : (pt.bindings.map fun b => (b.1, s.apply b.2)).length = p'.binders.length := by
    rw [List.length_map, ← Pattern.length_binders_of_unnamed hpattern, ← hnames, List.length_map]
  have hbindings : ∀ b ∈ pt.bindings.map fun b => (b.1, s.apply b.2), b.2.Within (drawn n) :=
    List.forall_mem_map.mpr fun b hb => hs.apply_within (hpt b hb)
  have hpaired := h.bindAll hbindings hlen
  have hfst : (pt.bindings.map fun b => (b.1, s.apply b.2)).map Prod.fst = p.binders := by
    rw [← hnames, List.map_map]
    rfl
  have hright : (pt.relabel p'.binders).bindings.map (fun b => (b.1, s.apply b.2)) =
      p'.binders.zip ((pt.bindings.map fun b => (b.1, s.apply b.2)).map Prod.snd) := by
    simp [PatternTyping.relabel, List.zip_map_right, Function.comp_def]
  rwa [hfst, ← hright] at hpaired

end Paired

/-! ## What an expression can see -/

/-- The free variables of the bindings whose names have a counterpart. -/
def visible (N : Names) (Γ : Env) : Set TyVar :=
  {v | ∃ (x y : String) (σ : Scheme), N x y ∧ Γ[x]? = some σ ∧ v ∈ σ.body.vars ∧ v ∉ σ.quantified}

theorem Bounded.below_visible (h : Γ.Bounded n) (N : Names) : Below (visible N Γ) n := by
  rintro v ⟨x, y, σ, -, hσ, hv, -⟩
  exact (h x σ hσ).body v hv

/-- The visible bindings make up an environment of their own. -/
theorem exists_visible (h : Γ.Bounded n) (N : Names) :
    ∃ Γ₀ : Env, Γ₀.FreeIn (visible N Γ) ∧ Paired N.diagonal n Γ Γ₀ := by
  classical
  let Γ₀ : Env := Γ.filter fun x _ => decide (∃ y, N x y)
  have hmem : ∀ (x : String) (σ : Scheme), Γ₀[x]? = some σ ↔ Γ[x]? = some σ ∧ ∃ y, N x y := by
    intro x σ
    simp [Γ₀, Std.ExtTreeMap.getElem?_filter]
  refine ⟨Γ₀, ?_, ?_, fun x z hxz _ => hxz.1, h, fun x σ hσ => h x σ ((hmem x σ).mp hσ).1⟩
  · rintro v ⟨x, σ, hσ, hv⟩
    obtain ⟨hσ, y, hxy⟩ := (hmem x σ).mp hσ
    exact ⟨x, y, σ, hxy, hσ, hv⟩
  · rintro x z ⟨rfl, hx⟩
    exact Option.ext fun σ => by rw [hmem, and_iff_left hx]

section Generalize

variable {W : Set TyVar} {v w : TyVar} {σ : Scheme}

theorem mem_vars_scheme_apply (hw : w ∈ σ.body.vars) (hq : w ∉ σ.quantified) (hv : v ∈ (s.image w).vars) :
    v ∈ (σ.apply s).body.vars := by
  refine Subst.mem_vars_apply.mpr ⟨w, hw, ?_⟩
  rwa [Subst.image_without, if_neg hq]

/-- After a run over what is visible, an open variable that is free anywhere is free in a visible binding. -/
theorem exists_visible_of_free {Δ : Env} (hΓ : Γ.Bounded n) (hΔ : Δ.Bounded n)
    (hs : s.Threaded (visible N Γ) n n') (hv : v ∈ scopeAfter (visible N Γ) n n' s)
    (hfree : (Δ.apply s).Free v) :
    ∃ (x y : String) (σ : Scheme), N x y ∧ Γ[x]? = some σ ∧ v ∈ (σ.apply s).body.vars ∧
      v ∉ σ.quantified := by
  obtain ⟨hgrow, hvs⟩ := hv
  rcases hgrow with ⟨x, y, σ, hxy, hσ, hvσ, hq⟩ | ⟨hnv, -⟩
  · -- the run has left the variable alone
    refine ⟨x, y, σ, hxy, hσ, mem_vars_scheme_apply hvσ hq ?_, hq⟩
    rw [Subst.image_of_notMem hvs]
    simp [Ty.vars]
  · -- a new variable stands for an old one, which the run has bound and hence has seen
    obtain ⟨z, τ', hτ', hvτ, hvq⟩ := hfree
    obtain ⟨τ, hτ, rfl⟩ := getElem?_apply_iff.mp hτ'
    obtain ⟨w, hw, hvw⟩ := Subst.mem_vars_apply.mp hvτ
    have hwn : w < n := (hΔ z τ hτ).body w hw
    have hne : v ≠ w := fun heq => Int.not_lt.mpr hnv (heq ▸ hwn)
    rw [Subst.image_without] at hvw
    split at hvw
    · exact absurd (by simpa [Ty.vars] using hvw) hne
    have hws : w ∈ s := by
      by_contra hws
      rw [Subst.image_of_notMem hws] at hvw
      exact hne (by simpa [Ty.vars] using hvw)
    obtain ⟨x, y, σ, hxy, hσ, hwσ, hq⟩ : w ∈ visible N Γ :=
      (hs.settled.within w (Or.inl hws)).resolve_right fun hle => Int.not_lt.mpr hle.1 hwn
    refine ⟨x, y, σ, hxy, hσ, mem_vars_scheme_apply hwσ hq hvw, fun hvσ => ?_⟩
    exact Int.not_lt.mpr hnv ((hΓ x σ hσ).quantified v hvσ)

/-- After a run over what is visible, both environments generalize its type in the same way. -/
theorem Paired.generalize_eq (h : Paired N n Γ Γ') (hs : s.Threaded (visible N Γ) n n') {t : Ty}
    (ht : t.Within (scopeAfter (visible N Γ) n n' s)) :
    (Γ.apply s).generalize t = (Γ'.apply s).generalize t := by
  have hiff : ∀ v ∈ t.vars, v ∈ (Γ.apply s).freeVars ↔ v ∈ (Γ'.apply s).freeVars := by
    intro v hv
    rw [← free_iff, ← free_iff]
    constructor
    · intro hfree
      obtain ⟨x, y, σ, hxy, hσ, hvσ⟩ := exists_visible_of_free h.left h.left hs (ht v hv) hfree
      exact ⟨y, σ.apply s, getElem?_apply_iff.mpr ⟨σ, h.lookup x y hxy ▸ hσ, rfl⟩, hvσ⟩
    · intro hfree
      obtain ⟨x, y, σ, -, hσ, hvσ⟩ := exists_visible_of_free h.left h.right hs (ht v hv) hfree
      exact ⟨x, σ.apply s, getElem?_apply_iff.mpr ⟨σ, hσ, rfl⟩, hvσ⟩
  have hquantified : ((Γ.apply s).generalize t).quantified = ((Γ'.apply s).generalize t).quantified := by
    refine Std.ExtTreeSet.ext_mem fun v => ?_
    rw [mem_quantified_generalize, mem_quantified_generalize]
    exact and_congr_right fun hv => not_congr (hiff v hv)
  exact congrArg (Scheme.mk · t) hquantified

end Generalize

end Env

/-! ## What a run gives -/

/-- A run that has drawn the variables from `n` up to `n'` gives a typing over those drawn so far. -/
structure Typing.Bounded (n n' : TyVar) (ty : Typing) : Prop where
  le : n ≤ n'
  subst : ty.subst.Bounded n'
  type : ty.type.Within (drawn n')

theorem Typing.Tidy.bounded {W : Set TyVar} {n n' : TyVar} {ty : Typing} (h : ty.Tidy W n n') :
    ty.Bounded n n' :=
  ⟨h.threaded.le, .of_threaded h.threaded,
    h.within.mono ((live_subset _ _).trans (grow_subset_drawn h.threaded.below h.threaded.le))⟩

/-! ## Two runs from one state -/

namespace Infer

variable {α β γ δ : Type} {c : InferContext} {st : InferState}

/-- From this state the two computations have the same outcome, with corresponding results, and leave the same
state. -/
def Together (f : α → β) (st : InferState) (x : Infer α) (y : Infer β) : Prop :=
  SameOutcome SameFault f (x.start st).1 (y.start st).1 ∧ (y.start st).2 = (x.start st).2

namespace Together

variable {f : α → β} {g : γ → δ} {x : Infer α} {y : Infer β}

theorem of_lockstep (h : Lockstep SameFault id f x y) : Together f st x y := h st

theorem refl (x : Infer α) : Together id st x x := of_lockstep (lockstep_self x)

theorem bind {k : α → Infer γ} {k' : β → Infer δ} (h : Together f st x y)
    (hk : ∀ a st', x.start st = (.ok a, st') → Together g st' (k a) (k' (f a))) :
    Together g st (x >>= k) (y >>= k') := by
  obtain ⟨hres, hst⟩ := h
  rw [Together, start_bind, start_bind]
  rcases hx : x.start st with ⟨res, st₁⟩
  rcases hy : y.start st with ⟨res', st₁'⟩
  rw [hx, hy] at hres hst
  subst hst
  cases hres with
  | ok a => exact hk a st₁' hx
  | error h => exact ⟨.error h, rfl⟩

/-- Both runs begin with the same computation. -/
theorem bind_same {x : Infer α} {k : α → Infer γ} {k' : α → Infer δ}
    (hk : ∀ a st', x.start st = (.ok a, st') → Together g st' (k a) (k' a)) :
    Together g st (x >>= k) (x >>= k') := (refl x).bind hk

/-- Both runs begin with the same computation, which leaves the state alone. -/
theorem bind_lift {x : Except TypeError α} {k : α → Infer γ} {k' : α → Infer δ}
    (hk : ∀ a, x = .ok a → Together g st (k a) (k' a)) :
    Together g st (liftM x >>= k) (liftM x >>= k') := by
  refine bind_same fun a st' h => ?_
  obtain ⟨hx, rfl⟩ := start_lift_ok.mp h
  exact hk a hx

theorem eq_ok {y : Infer α} (h : Together id st x y) {a : α} {st' : InferState}
    (hx : x.start st = (.ok a, st')) : y.start st = (.ok a, st') := by
  obtain ⟨hres, hst⟩ := h
  rcases hy : y.start st with ⟨res', st₁'⟩
  rw [hx, hy] at hres hst
  obtain rfl : st₁' = st' := hst
  cases hres
  rfl

end Together

end Infer

end Polytype
