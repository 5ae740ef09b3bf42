/-
# Polytype.Proofs.Run — what a successful run says about its steps.

Resolution and inference are written as sequences of steps that may fail and that draw variables.  A
sequence succeeds exactly when each step does, from the state that the step before it has left.  The
equivalences here take a run apart, or put one together, without unfolding the monads again.
-/
import Mathlib.Data.List.Forall2
import Polytype.Inference.State

namespace Polytype

/-! ## Steps that may fail -/

section Except

variable {ε α β : Type}

theorem bind_eq_ok_iff {x : Except ε α} {f : α → Except ε β} {b : β} :
    (x >>= f) = .ok b ↔ ∃ a, x = .ok a ∧ f a = .ok b := by
  cases x <;> simp [bind, Except.bind]

theorem map_eq_ok_iff {x : Except ε α} {f : α → β} {b : β} :
    (f <$> x) = .ok b ↔ ∃ a, x = .ok a ∧ f a = b := by
  cases x <;> simp [Functor.map, Except.map]

theorem pure_eq_ok_iff {a b : α} : (pure a : Except ε α) = .ok b ↔ a = b := by
  simp [pure, Except.pure]

theorem eq_ok_of_toOption {x : Except ε α} {a : α} (h : x.toOption = some a) : x = .ok a := by
  cases x with
  | error e => cases h
  | ok b => exact congrArg Except.ok (Option.some.inj h)

/-- What the start has and every step keeps, the end of a successful fold has. -/
theorem foldlM_invariant {f : β → α → Except ε β} {l : List α} (P : β → Prop)
    (step : ∀ b, ∀ a ∈ l, ∀ b', P b → f b a = .ok b' → P b') {b b' : β} (hb : P b)
    (h : l.foldlM f b = .ok b') : P b' := by
  induction l generalizing b with
  | nil =>
      rw [List.foldlM_nil, pure_eq_ok_iff] at h
      exact h ▸ hb
  | cons a l ih =>
      rw [List.foldlM_cons, bind_eq_ok_iff] at h
      obtain ⟨c, hc, h⟩ := h
      refine ih (fun b a' ha' => step b a' (List.mem_cons_of_mem a ha')) ?_ h
      exact step b a List.mem_cons_self c hb hc

/-- Every member of a successful `mapM` comes from a member of the list. -/
theorem exists_of_mem_mapM {f : α → Except ε β} {l : List α} {l' : List β}
    (h : l.mapM f = .ok l') : ∀ b ∈ l', ∃ a ∈ l, f a = .ok b := by
  induction l generalizing l' with
  | nil =>
      rw [List.mapM_nil, pure_eq_ok_iff] at h
      subst h
      exact fun b hb => absurd hb List.not_mem_nil
  | cons a l ih =>
      rw [List.mapM_cons, bind_eq_ok_iff] at h
      obtain ⟨c, hc, h⟩ := h
      rw [bind_eq_ok_iff] at h
      obtain ⟨cs, hcs, h⟩ := h
      rw [pure_eq_ok_iff] at h
      subst h
      intro b hb
      rcases List.mem_cons.mp hb with rfl | hb
      · exact ⟨a, List.mem_cons_self, hc⟩
      · obtain ⟨a', ha', hb⟩ := ih hcs b hb
        exact ⟨a', List.mem_cons_of_mem a ha', hb⟩

theorem mapM_total {f : α → Except ε β} {l : List α} (h : ∀ a ∈ l, ∃ b, f a = .ok b) :
    ∃ l', l.mapM f = .ok l' := by
  induction l with
  | nil => exact ⟨[], rfl⟩
  | cons a l ih =>
      obtain ⟨b, hb⟩ := h a List.mem_cons_self
      obtain ⟨bs, hbs⟩ := ih fun a' ha' => h a' (List.mem_cons_of_mem a ha')
      refine ⟨b :: bs, ?_⟩
      rw [List.mapM_cons, bind_eq_ok_iff]
      exact ⟨b, hb, bind_eq_ok_iff.mpr ⟨bs, hbs, rfl⟩⟩

theorem mapM_congr {f g : α → Except ε β} {l : List α} (h : ∀ a ∈ l, f a = g a) : l.mapM f = l.mapM g := by
  induction l with
  | nil => rfl
  | cons a l ih =>
      rw [List.mapM_cons, List.mapM_cons, h a List.mem_cons_self, ih fun b hb => h b (List.mem_cons_of_mem a hb)]

/-- Every member of the list gives a member of a successful `mapM`. -/
theorem exists_mem_of_mapM {f : α → Except ε β} {l : List α} {l' : List β}
    (h : l.mapM f = .ok l') : ∀ a ∈ l, ∃ b ∈ l', f a = .ok b := by
  induction l generalizing l' with
  | nil => exact fun a ha => absurd ha List.not_mem_nil
  | cons a l ih =>
      rw [List.mapM_cons, bind_eq_ok_iff] at h
      obtain ⟨b, hb, h⟩ := h
      rw [bind_eq_ok_iff] at h
      obtain ⟨bs, hbs, h⟩ := h
      rw [pure_eq_ok_iff] at h
      subst h
      refine List.forall_mem_cons.mpr ⟨⟨b, List.mem_cons_self, hb⟩, fun a' ha' => ?_⟩
      obtain ⟨b', hb', hfa⟩ := ih hbs a' ha'
      exact ⟨b', List.mem_cons_of_mem b hb', hfa⟩

/-- A successful `mapM` gives the results of the members in order. -/
theorem mapM_eq_ok_iff {f : α → Except ε β} {l : List α} {l' : List β} :
    l.mapM f = .ok l' ↔ List.Forall₂ (fun a b => f a = .ok b) l l' := by
  induction l generalizing l' with
  | nil => simp [pure, Except.pure, eq_comm]
  | cons a l ih =>
      simp only [List.mapM_cons, bind_eq_ok_iff, pure_eq_ok_iff, ih, List.forall₂_cons_left_iff]
      grind

theorem exists_mapM_iff {f : α → Except ε β} {l : List α} :
    (∃ l', l.mapM f = .ok l') ↔ ∀ a ∈ l, ∃ b, f a = .ok b := by
  refine ⟨?_, mapM_total⟩
  rintro ⟨l', h⟩ a ha
  obtain ⟨b, -, hb⟩ := exists_mem_of_mapM h a ha
  exact ⟨b, hb⟩

/-- A fold succeeds exactly when each step does, if the success of a step depends on nothing but the
invariant. -/
theorem exists_foldlM_iff {f : β → α → Except ε β} {l : List α} (P : β → Prop) {Q : α → Prop}
    (accepts : ∀ b, P b → ∀ a ∈ l, (∃ b', f b a = .ok b') ↔ Q a)
    (keeps : ∀ b, ∀ a ∈ l, ∀ b', P b → f b a = .ok b' → P b') {b : β} (hb : P b) :
    (∃ b', l.foldlM f b = .ok b') ↔ ∀ a ∈ l, Q a := by
  induction l generalizing b with
  | nil => simp [pure, Except.pure]
  | cons a l ih =>
      have hl : ∀ c, P c → ((∃ b', l.foldlM f c = .ok b') ↔ ∀ a ∈ l, Q a) := fun c hc =>
        ih (fun b hb a' ha' => accepts b hb a' (List.mem_cons_of_mem a ha'))
          (fun b a' ha' => keeps b a' (List.mem_cons_of_mem a ha')) hc
      simp only [List.foldlM_cons, bind_eq_ok_iff, List.forall_mem_cons]
      rw [← accepts b hb a List.mem_cons_self]
      constructor
      · rintro ⟨b', c, hc, h⟩
        exact ⟨⟨c, hc⟩, (hl c (keeps b a List.mem_cons_self c hb hc)).mp ⟨b', h⟩⟩
      · rintro ⟨⟨c, hc⟩, h⟩
        obtain ⟨b', hb'⟩ := (hl c (keeps b a List.mem_cons_self c hb hc)).mpr h
        exact ⟨b', c, hc, hb'⟩

/-- A fold that leaves out some members and changes the others follows the fold over all of them, if it does
so at each step. -/
theorem exists_foldlM_filterMap {α' β' : Type} {f : β → α → Except ε β} {f' : β' → α' → Except ε β'}
    {g : α → Option α'} {l : List α} (R : β → β' → Prop)
    (keeps : ∀ a ∈ l, ∀ a', g a = some a' → ∀ b b₁ b', R b b' → f b a = .ok b₁ →
      ∃ b₁', f' b' a' = .ok b₁' ∧ R b₁ b₁')
    (drops : ∀ a ∈ l, g a = none → ∀ b b₁ b', R b b' → f b a = .ok b₁ → R b₁ b') :
    ∀ {b b₁ : β} {b' : β'}, R b b' → l.foldlM f b = .ok b₁ →
      ∃ b₁', (l.filterMap g).foldlM f' b' = .ok b₁' ∧ R b₁ b₁' := by
  induction l with
  | nil =>
      intro b b₁ b' hR h
      rw [List.foldlM_nil, pure_eq_ok_iff] at h
      exact ⟨b', rfl, h ▸ hR⟩
  | cons a l ih =>
      intro b b₁ b' hR h
      rw [List.foldlM_cons, bind_eq_ok_iff] at h
      obtain ⟨c, hc, h⟩ := h
      have ih := @ih (fun a' ha' => keeps a' (List.mem_cons_of_mem a ha'))
        (fun a' ha' => drops a' (List.mem_cons_of_mem a ha'))
      cases hg : g a with
      | none =>
          -- only the fold over all members takes a step here
          rw [List.filterMap_cons_none hg]
          exact ih (drops a List.mem_cons_self hg b c b' hR hc) h
      | some a' =>
          obtain ⟨c', hc', hR⟩ := keeps a List.mem_cons_self a' hg b c b' hR hc
          obtain ⟨b₁', h', hR⟩ := ih hR h
          refine ⟨b₁', ?_, hR⟩
          rw [List.filterMap_cons_some hg, List.foldlM_cons, bind_eq_ok_iff]
          exact ⟨c', hc', h'⟩

/-- Every error in which the computation may end has the property. -/
def FailsOnly (P : ε → Prop) (x : Except ε α) : Prop := ∀ e, x = .error e → P e

namespace FailsOnly

variable {P : ε → Prop} {x : Except ε α}

theorem ok (a : α) : FailsOnly P (.ok a : Except ε α) := fun _ h => by cases h

theorem bind {f : α → Except ε β} (hx : FailsOnly P x) (hf : ∀ a, FailsOnly P (f a)) :
    FailsOnly P (x >>= f) := by
  cases x with
  | error e =>
      intro e' h
      cases h
      exact hx e rfl
  | ok a => exact hf a

theorem foldlM {f : β → α → Except ε β} (hf : ∀ b a, FailsOnly P (f b a)) (l : List α) (b : β) :
    FailsOnly P (l.foldlM f b) := by
  induction l generalizing b with
  | nil => exact ok b
  | cons a l ih =>
      rw [List.foldlM_cons]
      exact (hf b a).bind ih

theorem mapM {f : α → Except ε β} {l : List α} (hf : ∀ a ∈ l, FailsOnly P (f a)) :
    FailsOnly P (l.mapM f) := by
  induction l with
  | nil => exact ok []
  | cons a l ih =>
      obtain ⟨ha, hl⟩ := List.forall_mem_cons.mp hf
      rw [List.mapM_cons]
      exact ha.bind fun b => (ih hl).bind fun bs => ok _

end FailsOnly

/-- Both computations succeed, with results that correspond under `f`, or both fail, with errors that `E`
relates. -/
inductive SameOutcome (E : ε → ε → Prop) (f : α → β) : Except ε α → Except ε β → Prop where
  | ok (a : α) : SameOutcome E f (.ok a) (.ok (f a))
  | error {e e' : ε} (h : E e e') : SameOutcome E f (.error e) (.error e')

namespace SameOutcome

variable {γ δ : Type} {E : ε → ε → Prop} {f : α → β} {g : γ → δ} {x : Except ε α} {y : Except ε β}

theorem ok_of_eq {a : α} {b : β} (h : b = f a) : SameOutcome E f (.ok a) (.ok b) := h ▸ .ok a

theorem eq_ok (h : SameOutcome E f x y) {a : α} (hx : x = .ok a) : y = .ok (f a) := by
  subst hx
  cases h
  rfl

theorem refl (hx : FailsOnly (fun e => E e e) x) : SameOutcome E id x x := by
  cases x with
  | ok a => exact .ok a
  | error e => exact .error (hx e rfl)

theorem bind {k : α → Except ε γ} {k' : β → Except ε δ} (hxy : SameOutcome E f x y)
    (hk : ∀ a, SameOutcome E g (k a) (k' (f a))) : SameOutcome E g (x >>= k) (y >>= k') := by
  cases hxy with
  | ok a => exact hk a
  | error h => exact .error h

theorem error_bind {e : ε} {k : β → Except ε δ} (h : SameOutcome E f (.error e) y) :
    SameOutcome E g (.error e) (y >>= k) := by
  cases h with
  | error h => exact .error h

theorem ok_bind {a : α} {z : Except ε γ} {k : β → Except ε δ} (h : SameOutcome E f (.ok a) y)
    (hk : SameOutcome E g z (k (f a))) : SameOutcome E g z (y >>= k) := by
  cases h with
  | ok a => exact hk

theorem map {h : α → γ} {h' : β → δ} (hxy : SameOutcome E f x y) (hh : ∀ a, h' (f a) = g (h a)) :
    SameOutcome E g (x.map h) (y.map h') := by
  cases hxy with
  | ok a =>
      rw [Except.map, Except.map, hh]
      exact .ok (h a)
  | error h => exact .error h

end SameOutcome

end Except

/-! ## Steps of inference -/

namespace Infer

variable {α β : Type}

theorem start_bind_ok {x : Infer α} {f : α → Infer β} {st st'' : InferState} {b : β} :
    (x >>= f).start st = (.ok b, st'') ↔
      ∃ a st', x.start st = (.ok a, st') ∧ (f a).start st' = (.ok b, st'') := by
  rw [start_bind]
  rcases x.start st with ⟨e | a, st'⟩ <;> simp

theorem start_pure_ok {a b : α} {st st' : InferState} :
    (pure a : Infer α).start st = (.ok b, st') ↔ a = b ∧ st = st' := by
  rw [start_pure]
  simp

theorem start_lift_ok {x : Except TypeError α} {a : α} {st st' : InferState} :
    (liftM x : Infer α).start st = (.ok a, st') ↔ x = .ok a ∧ st = st' := by
  rw [start_lift]
  simp

end Infer

/-! ## Steps of resolution -/

namespace Resolve

variable {α β : Type}

/-- Runs a resolution from a state. -/
def start (x : Resolve α) (sc : NamedVars) : Except TypeError α × NamedVars := x.run.run sc

theorem start_bind (x : Resolve α) (f : α → Resolve β) (sc : NamedVars) :
    start (x >>= f) sc =
      match start x sc with
      | (.ok a, sc') => start (f a) sc'
      | (.error e, sc') => (.error e, sc') := by
  simp only [start, ExceptT.run_bind]
  simp only [bind, StateT.bind, StateT.run]
  rcases x.run sc with ⟨_ | _, _⟩ <;> rfl

theorem start_bind_ok {x : Resolve α} {f : α → Resolve β} {sc sc'' : NamedVars} {b : β} :
    start (x >>= f) sc = (.ok b, sc'') ↔
      ∃ a sc', start x sc = (.ok a, sc') ∧ start (f a) sc' = (.ok b, sc'') := by
  rw [start_bind]
  rcases start x sc with ⟨e | a, sc'⟩ <;> simp

theorem start_map (f : α → β) (x : Resolve α) (sc : NamedVars) :
    start (f <$> x) sc = ((start x sc).1.map f, (start x sc).2) := by
  rw [map_eq_pure_bind, start_bind]
  rcases start x sc with ⟨_ | _, _⟩ <;> rfl

theorem start_pure_ok {a b : α} {sc sc' : NamedVars} :
    start (pure a : Resolve α) sc = (.ok b, sc') ↔ a = b ∧ sc = sc' := by
  show ((Except.ok a, sc) : Except TypeError α × NamedVars) = (.ok b, sc') ↔ _
  simp

theorem start_lift_ok {x : Except TypeError α} {a : α} {sc sc' : NamedVars} :
    start (liftM x : Resolve α) sc = (.ok a, sc') ↔ x = .ok a ∧ sc = sc' := by
  show ((x, sc) : Except TypeError α × NamedVars) = (.ok a, sc') ↔ _
  simp

end Resolve

end Polytype
