/-
# Polytype.Proofs.Registry.Naming — which variables an ascription takes for its names.

Resolution goes through an expression once, from left to right, and looks at two kinds of things: names of types, with
the number of their arguments, and names of variables.  Listed in this order (`TypeExpr.mentions`) they are all that
matters for its state.  A resolution without its result is a walk along the list (`TypeTable.walks_resolveWith`), which
stops at the first name of a type that has no meaning.  So a resolution that fails has seen a part of the names, and
one that succeeds has seen all of them (`TypeTable.visited`).

A walk takes the next variable whenever it meets a name for the first time (`NamedVars.adds_foldl_see`).  After a
resolution that has succeeded every name is known, and going through the expression again only reads
(`TypeTable.resolveWith_settles`).
-/
import Mathlib
import Polytype.Proofs.Registry.Ascription

namespace Polytype

/-! ## What an expression mentions -/

/-- What resolution looks at in a type expression. -/
inductive Mention where
  /-- The name of a type, in front of so many arguments. -/
  | type (name : String) (argCount : Nat)
  /-- The name of a variable. -/
  | var (name : String)
  deriving DecidableEq

namespace Mention

/-- The name, if it is that of a variable. -/
def varName? : Mention → Option String
  | .type _ _ => none
  | .var name => some name

/-- The name of a type has to have a meaning with so many arguments; a variable may have any name. -/
def accepted (table : TypeTable) : Mention → Bool
  | .type name argCount => (table.denote name argCount).isOk
  | .var _ => true

theorem accepted_of_ok {table : TypeTable} {name : String} {argCount : Nat} {d : Denotation}
    (h : table.denote name argCount = .ok d) : (type name argCount).accepted table = true := by
  rw [accepted, h]
  rfl

theorem not_accepted_of_error {table : TypeTable} {name : String} {argCount : Nat} {err : TypeError}
    (h : table.denote name argCount = .error err) : ¬ (type name argCount).accepted table = true := by
  rw [accepted, h]
  exact Bool.false_ne_true

end Mention

namespace TypeExpr

mutual
/-- The type variables of an expression, one entry per occurrence, from left to right. -/
def varNames : TypeExpr → List String
  | .con _ args => varNamesList args
  | .var name => [name]
  | .arrow dom cod => dom.varNames ++ cod.varNames
  | .tuple elems => varNamesList elems
  | .record fields => varNamesFields fields
/-- The type variables of a list of expressions. -/
def varNamesList : List TypeExpr → List String
  | [] => []
  | t :: ts => t.varNames ++ varNamesList ts
/-- The type variables of labelled expressions. -/
def varNamesFields : List (String × TypeExpr) → List String
  | [] => []
  | (_, t) :: fs => t.varNames ++ varNamesFields fs
end

mutual
/-- All that an expression mentions, from left to right; a name stands before its arguments. -/
def mentions : TypeExpr → List Mention
  | .con name args => .type name args.length :: mentionsList args
  | .var name => [.var name]
  | .arrow dom cod => dom.mentions ++ cod.mentions
  | .tuple elems => mentionsList elems
  | .record fields => mentionsFields fields
/-- All that a list of expressions mentions. -/
def mentionsList : List TypeExpr → List Mention
  | [] => []
  | t :: ts => t.mentions ++ mentionsList ts
/-- All that labelled expressions mention. -/
def mentionsFields : List (String × TypeExpr) → List Mention
  | [] => []
  | (_, t) :: fs => t.mentions ++ mentionsFields fs
end

theorem varNamesFields_eq (fs : List (String × TypeExpr)) :
    varNamesFields fs = varNamesList (fs.map Prod.snd) := by
  induction fs with
  | nil => rfl
  | cons f fs ih => rw [varNamesFields, ih, List.map_cons, varNamesList]

theorem mentionsFields_eq (fs : List (String × TypeExpr)) :
    mentionsFields fs = mentionsList (fs.map Prod.snd) := by
  induction fs with
  | nil => rfl
  | cons f fs ih => rw [mentionsFields, ih, List.map_cons, mentionsList]

theorem filterMap_mentionsList {es : List TypeExpr}
    (ih : ∀ e ∈ es, e.mentions.filterMap Mention.varName? = e.varNames) :
    (mentionsList es).filterMap Mention.varName? = varNamesList es := by
  induction es with
  | nil => rfl
  | cons e es ihes =>
      rw [mentionsList, List.filterMap_append, ih e List.mem_cons_self,
        ihes fun e' he' => ih e' (List.mem_cons_of_mem e he'), varNamesList]

/-- The variables among what is mentioned are the variables of the expression. -/
theorem filterMap_mentions (e : TypeExpr) : e.mentions.filterMap Mention.varName? = e.varNames := by
  induction e with
  | con name args ih => exact filterMap_mentionsList ih
  | var name => rfl
  | arrow dom cod ihd ihc => rw [mentions, List.filterMap_append, ihd, ihc, varNames]
  | tuple elems ih => exact filterMap_mentionsList ih
  | record fields ih =>
      rw [mentions, varNames, mentionsFields_eq, varNamesFields_eq]
      exact filterMap_mentionsList (List.forall_mem_map.mpr ih)

end TypeExpr

namespace TypeTable

variable {table : TypeTable} {e : TypeExpr}

/-- The variables that resolution comes to: those in front of the first name of a type that has no meaning. -/
def visited (table : TypeTable) (e : TypeExpr) : List String :=
  (e.mentions.takeWhile (Mention.accepted table)).filterMap Mention.varName?

theorem visited_initial (table : TypeTable) (e : TypeExpr) : table.visited e <+: e.varNames := by
  rw [← e.filterMap_mentions]
  exact (List.takeWhile_prefix _).filterMap _

theorem visited_eq_varNames (h : ∀ m ∈ e.mentions, m.accepted table = true) : table.visited e = e.varNames := by
  rw [visited, List.takeWhile_eq_self_iff.mpr h, e.filterMap_mentions]

end TypeTable

/-! ## Resolution as a walk -/

/-- What resolution does about a mention. -/
def Mention.meet (table : TypeTable) : Mention → Resolve Unit
  | .type name argCount => (fun _ => ()) <$> (liftM (table.denote name argCount) : Resolve Denotation)
  | .var name => (fun _ => ()) <$> NamedVars.ofName name

namespace Resolve

variable {α β : Type} {table : TypeTable} {ms ms' : List Mention}

/-- Up to its result, the computation meets what is listed, in this order. -/
def Walks (table : TypeTable) (x : Resolve α) (ms : List Mention) : Prop :=
  (fun _ => ()) <$> x = forM ms (Mention.meet table)

namespace Walks

theorem pure (a : α) : Walks table (Pure.pure a) [] := by
  rw [Walks, map_pure, List.forM_nil]

theorem bind {x : Resolve α} {f : α → Resolve β} (hx : Walks table x ms) (hf : ∀ a, Walks table (f a) ms') :
    Walks table (x >>= f) (ms ++ ms') := by
  have hf : (fun a => (fun _ => ()) <$> f a) = fun _ => forM ms' (Mention.meet table) := funext hf
  rw [Walks, map_bind, hf, List.forM_append, ← hx, bind_map_left]

theorem map {x : Resolve α} (f : α → β) (hx : Walks table x ms) : Walks table (f <$> x) ms := by
  rw [Walks, ← hx, Functor.map_map]

end Walks

end Resolve

namespace TypeTable

variable {table : TypeTable}

open Resolve

theorem walks_resolveList {es : List TypeExpr}
    (ih : ∀ e ∈ es, Walks table (table.resolveWith NamedVars.ofName e) e.mentions) :
    Walks table (table.resolveList NamedVars.ofName es) (TypeExpr.mentionsList es) := by
  induction es with
  | nil => exact .pure []
  | cons e es ihes =>
      rw [resolveList, TypeExpr.mentionsList]
      refine (ih e List.mem_cons_self).bind fun t => ?_
      rw [← map_eq_pure_bind]
      exact (ihes fun e' he' => ih e' (List.mem_cons_of_mem e he')).map _

/-- A name is met before its arguments, and they are not met if it has no meaning. -/
theorem walks_resolveWith_con {name : String} {args : List TypeExpr}
    (hargs : Walks table (table.resolveList NamedVars.ofName args) (TypeExpr.mentionsList args)) :
    Walks table (table.resolveWith NamedVars.ofName (.con name args)) (TypeExpr.con name args).mentions := by
  rw [Walks, resolveWith, TypeExpr.mentions, List.forM_cons, Mention.meet]
  cases hd : table.denote name args.length with
  | error err => rfl
  | ok d =>
      cases d with
      | closed t =>
          -- a name that stands for a type by itself has no arguments that could be passed over
          obtain rfl := List.length_eq_zero_iff.mp (denote_closed hd).1
          rfl
      | sum =>
          change (fun _ => ()) <$> (table.resolveList NamedVars.ofName args >>= fun ts => Pure.pure (Ty.sum name ts)) =
            forM (TypeExpr.mentionsList args) (Mention.meet table)
          rw [← map_eq_pure_bind]
          exact hargs.map _

/-- Up to its result, resolution meets what the expression mentions. -/
theorem walks_resolveWith (table : TypeTable) (e : TypeExpr) :
    Walks table (table.resolveWith NamedVars.ofName e) e.mentions := by
  induction e with
  | con name args ih => exact walks_resolveWith_con (walks_resolveList ih)
  | var name =>
      rw [Walks, TypeExpr.mentions, List.forM_cons, List.forM_nil, Mention.meet, resolveWith]
      exact (bind_pure _).symm
  | arrow dom cod ihd ihc =>
      rw [resolveWith, TypeExpr.mentions]
      refine ihd.bind fun a => ?_
      rw [← map_eq_pure_bind]
      exact ihc.map _
  | tuple elems ih =>
      rw [resolveWith, ← map_eq_pure_bind]
      exact (walks_resolveList ih).map _
  | record fields ih =>
      rw [resolveWith, ← map_eq_pure_bind, resolveFields_eq, TypeExpr.mentions, TypeExpr.mentionsFields_eq]
      exact ((walks_resolveList (List.forall_mem_map.mpr ih)).map _).map _

end TypeTable

/-! ## The names that a walk adds -/

namespace NamedVars

variable {sc sc' : NamedVars} {x : String} {xs : List String}

/-- The state after a name has been met. -/
def see (sc : NamedVars) (x : String) : NamedVars := if x ∈ sc.vars then sc else sc.draw x

/-- The names that have no variable yet, each in the place where it comes first. -/
def newNames (sc : NamedVars) (xs : List String) : List String := (xs.filter (· ∉ sc.vars)).eraseDups

/-- The state `sc'` has the names `xs` in addition, with the variables that were next for `sc`, in this order. -/
structure Adds (sc : NamedVars) (xs : List String) (sc' : NamedVars) : Prop where
  nodup : xs.Nodup
  notMem : ∀ x ∈ xs, x ∉ sc.vars
  getElem?_iff : ∀ (x : String) (v : TyVar),
    sc'.vars[x]? = some v ↔ sc.vars[x]? = some v ∨ ∃ i : Nat, xs[i]? = some x ∧ v = sc.next + i
  next_eq : sc'.next = sc.next + xs.length

/-- Different names stand for different variables, and all of these have been drawn. -/
structure Distinct (sc : NamedVars) : Prop where
  lt_next : ∀ (x : String) (v : TyVar), sc.vars[x]? = some v → v < sc.next
  inj : ∀ (x y : String) (v : TyVar), sc.vars[x]? = some v → sc.vars[y]? = some v → x = y

theorem mem_draw {y : String} : y ∈ (sc.draw x).vars ↔ x = y ∨ y ∈ sc.vars := by
  simp [draw, Std.ExtTreeMap.mem_insert]

theorem newNames_cons_of_mem (hx : x ∈ sc.vars) : sc.newNames (x :: xs) = sc.newNames xs := by
  simp [newNames, hx]

theorem newNames_cons_of_notMem (hx : x ∉ sc.vars) :
    sc.newNames (x :: xs) = x :: (sc.draw x).newNames xs := by
  rw [newNames, List.filter_cons_of_pos (by simpa using hx), List.eraseDups_cons, List.filter_filter, newNames]
  congr 3
  funext y
  simp only [mem_draw, not_or, Bool.decide_and, decide_not, eq_comm, beq_eq_decide]

theorem mem_newNames {y : String} : y ∈ sc.newNames xs ↔ y ∈ xs ∧ y ∉ sc.vars := by
  simp [newNames, List.mem_eraseDups]

/-- A member of a list with its place, counted from `n` on, stands at the head or in the tail. -/
theorem exists_getElem?_cons {y : String} {v n : TyVar} :
    (∃ i : Nat, (x :: xs)[i]? = some y ∧ v = n + i) ↔
      x = y ∧ v = n ∨ ∃ i : Nat, xs[i]? = some y ∧ v = n + 1 + i := by
  constructor
  · rintro ⟨i, hi, rfl⟩
    cases i with
    | zero => exact Or.inl ⟨by simpa using hi, by simp⟩
    | succ i => exact Or.inr ⟨i, by simpa using hi, by lia⟩
  · rintro (⟨rfl, rfl⟩ | ⟨i, hi, rfl⟩)
    · exact ⟨0, by simp⟩
    · exact ⟨i + 1, by simpa using hi, by lia⟩

namespace Adds

theorem refl (sc : NamedVars) : sc.Adds [] sc where
  nodup := List.nodup_nil
  notMem := by simp
  getElem?_iff := by simp
  next_eq := by simp

theorem cons (hx : x ∉ sc.vars) (h : (sc.draw x).Adds xs sc') : sc.Adds (x :: xs) sc' where
  nodup := by
    refine List.nodup_cons.mpr ⟨fun hmem => ?_, h.nodup⟩
    exact h.notMem x hmem (mem_draw.mpr (Or.inl rfl))
  notMem := by
    refine List.forall_mem_cons.mpr ⟨hx, fun y hy hmem => ?_⟩
    exact h.notMem y hy (mem_draw.mpr (Or.inr hmem))
  getElem?_iff := by
    intro y v
    rw [h.getElem?_iff, getElem?_draw, exists_getElem?_cons]
    by_cases hxy : x = y
    · subst hxy
      simp [draw, hx, eq_comm]
    · simp [draw, hxy]
  next_eq := by
    have hdraw : (sc.draw x).next = sc.next + 1 := rfl
    rw [h.next_eq, hdraw, List.length_cons]
    lia

/-- The variables of names that are added lie above those from before, so all of them stay apart. -/
theorem distinct (h : sc.Adds xs sc') (hsc : sc.Distinct) : sc'.Distinct where
  lt_next := by
    intro x v hv
    rw [h.next_eq]
    rcases (h.getElem?_iff x v).mp hv with hv | ⟨i, hi, rfl⟩
    · have := hsc.lt_next x v hv
      lia
    · have := (List.getElem?_eq_some_iff.mp hi).1
      lia
  inj := by
    intro x y v hx hy
    rcases (h.getElem?_iff x v).mp hx with hx | ⟨i, hi, rfl⟩ <;>
      rcases (h.getElem?_iff y _).mp hy with hy | ⟨j, hj, heq⟩
    · exact hsc.inj x y v hx hy
    · -- one name is from before and the other one is added
      have := hsc.lt_next x v hx
      lia
    · have := hsc.lt_next y _ hy
      lia
    · obtain rfl : i = j := by lia
      exact Option.some.inj (hi.symm.trans hj)

end Adds

/-- A walk along a list of names adds the new ones among them, in the order in which they come first. -/
theorem adds_foldl_see (xs : List String) (sc : NamedVars) : sc.Adds (sc.newNames xs) (xs.foldl see sc) := by
  induction xs generalizing sc with
  | nil => exact .refl sc
  | cons x xs ih =>
      rw [List.foldl_cons, see]
      split
      · next hx =>
          rw [newNames_cons_of_mem hx]
          exact ih sc
      · next hx =>
          rw [newNames_cons_of_notMem hx]
          exact (ih (sc.draw x)).cons hx

end NamedVars

namespace Resolve

variable {α : Type} {table : TypeTable} {ms : List Mention}

theorem start_meet_type (table : TypeTable) (name : String) (argCount : Nat) (sc : NamedVars) :
    start (Mention.meet table (.type name argCount)) sc = ((table.denote name argCount).map fun _ => (), sc) :=
  start_map _ _ sc

theorem start_meet_var (table : TypeTable) (x : String) (sc : NamedVars) :
    start (Mention.meet table (.var x)) sc = (.ok (), sc.see x) := by
  rw [Mention.meet, start_map, NamedVars.start_ofName, NamedVars.see]
  cases hx : sc.vars[x]? with
  | some v =>
      rw [if_pos (by simp [Std.ExtTreeMap.mem_iff_isSome_getElem?, hx])]
      rfl
  | none =>
      rw [if_neg (by simp [Std.ExtTreeMap.mem_iff_isSome_getElem?, hx])]
      rfl

/-- A walk sees the variables in front of the first mention that is not accepted. -/
theorem snd_start_forM_meet (table : TypeTable) (ms : List Mention) (sc : NamedVars) :
    (start (forM ms (Mention.meet table)) sc).2 =
      ((ms.takeWhile (Mention.accepted table)).filterMap Mention.varName?).foldl NamedVars.see sc := by
  induction ms generalizing sc with
  | nil => rfl
  | cons m ms ih =>
      rw [List.forM_cons, start_bind]
      cases m with
      | type name argCount =>
          rw [start_meet_type]
          cases hd : table.denote name argCount with
          | error err =>
              rw [List.takeWhile_cons_of_neg (Mention.not_accepted_of_error hd)]
              rfl
          | ok d =>
              rw [List.takeWhile_cons_of_pos (Mention.accepted_of_ok hd), List.filterMap_cons_none rfl]
              exact ih sc
      | var x =>
          have hname : (Mention.var x).varName? = some x := rfl
          rw [start_meet_var, List.takeWhile_cons_of_pos rfl, List.filterMap_cons_some hname, List.foldl_cons]
          exact ih (sc.see x)

/-- A walk comes to its end exactly when everything on the way is accepted. -/
theorem isOk_start_forM_meet (table : TypeTable) (ms : List Mention) (sc : NamedVars) :
    (start (forM ms (Mention.meet table)) sc).1.isOk = ms.all (Mention.accepted table) := by
  induction ms generalizing sc with
  | nil => rfl
  | cons m ms ih =>
      rw [List.forM_cons, start_bind, List.all_cons]
      cases m with
      | type name argCount =>
          rw [start_meet_type]
          cases hd : table.denote name argCount with
          | error err =>
              rw [Bool.eq_false_of_not_eq_true (Mention.not_accepted_of_error hd), Bool.false_and]
              rfl
          | ok d =>
              rw [Mention.accepted_of_ok hd, Bool.true_and]
              exact ih sc
      | var x =>
          rw [start_meet_var]
          exact ih (sc.see x)

namespace Walks

variable {x : Resolve α}

theorem snd_start (h : Walks table x ms) (sc : NamedVars) :
    (start x sc).2 = ((ms.takeWhile (Mention.accepted table)).filterMap Mention.varName?).foldl NamedVars.see sc := by
  rw [← snd_start_forM_meet, ← h, start_map]

theorem isOk_start (h : Walks table x ms) (sc : NamedVars) :
    (start x sc).1.isOk = ms.all (Mention.accepted table) := by
  rw [← isOk_start_forM_meet table ms sc, ← h, start_map]
  cases (start x sc).1 with
  | error err => rfl
  | ok a => rfl

end Walks

end Resolve

namespace TypeTable

variable {table : TypeTable} {e : TypeExpr} {sc sc' : NamedVars}

/-- Resolution, whether it succeeds or fails, adds the new names among those that it comes to. -/
theorem adds_resolveWith {res : Except TypeError Ty}
    (h : Resolve.start (table.resolveWith NamedVars.ofName e) sc = (res, sc')) :
    sc.Adds (sc.newNames (table.visited e)) sc' := by
  obtain rfl : (table.visited e).foldl NamedVars.see sc = sc' := by
    rw [visited, ← (table.walks_resolveWith e).snd_start]
    exact congrArg Prod.snd h
  exact NamedVars.adds_foldl_see _ sc

/-- Resolution succeeds exactly when all names of types in the expression have a meaning. -/
theorem isOk_resolveWith {res : Except TypeError Ty}
    (h : Resolve.start (table.resolveWith NamedVars.ofName e) sc = (res, sc')) :
    res.isOk = e.mentions.all (Mention.accepted table) := by
  rw [← (table.walks_resolveWith e).isOk_start sc, h]

/-- A resolution that succeeds has come to all names of the expression. -/
theorem visited_of_ok {t : Ty} (h : Resolve.start (table.resolveWith NamedVars.ofName e) sc = (.ok t, sc')) :
    table.visited e = e.varNames :=
  visited_eq_varNames (List.all_eq_true.mp (isOk_resolveWith h).symm)

/-- It knows all of them in the end. -/
theorem exists_of_mem_varNames (e : TypeExpr) {t : Ty}
    (h : Resolve.start (table.resolveWith NamedVars.ofName e) sc = (.ok t, sc')) :
    ∀ x ∈ e.varNames, ∃ v, sc'.vars[x]? = some v := by
  intro x hx
  have hadds := adds_resolveWith h
  rw [visited_of_ok h] at hadds
  cases hv : sc.vars[x]? with
  | some v => exact ⟨v, (hadds.getElem?_iff x v).mpr (Or.inl hv)⟩
  | none =>
      have hnew : x ∈ sc.newNames e.varNames :=
        NamedVars.mem_newNames.mpr ⟨hx, by simp [Std.ExtTreeMap.mem_iff_isSome_getElem?, hv]⟩
      obtain ⟨i, hi⟩ := List.mem_iff_getElem?.mp hnew
      exact ⟨sc.next + i, (hadds.getElem?_iff x _).mpr (Or.inr ⟨i, hi, rfl⟩)⟩

end TypeTable

/-! ## Going through an expression again -/

namespace TypeTable

variable {table : TypeTable} {e : TypeExpr} {es : List TypeExpr}

/-- Wherever the names of `sc` are known the expression resolves to `t` and nothing changes.  The variables of `t` are
those that stand for the names in the expression, one for each occurrence. -/
def Settles (table : TypeTable) (sc : NamedVars) (e : TypeExpr) (t : Ty) : Prop :=
  ∀ sc' : NamedVars, (∀ (x : String) (v : TyVar), sc.vars[x]? = some v → sc'.vars[x]? = some v) →
    Resolve.start (table.resolveWith NamedVars.ofName e) sc' = (.ok t, sc') ∧
      t.vars.map some = e.varNames.map (sc'.vars[·]?)

theorem resolveList_settles
    (ih : ∀ e ∈ es, ∀ {sc sc' : NamedVars} {t : Ty},
      Resolve.start (table.resolveWith NamedVars.ofName e) sc = (.ok t, sc') → table.Settles sc' e t) :
    ∀ {sc sc' : NamedVars} {ts : List Ty},
      Resolve.start (table.resolveList NamedVars.ofName es) sc = (.ok ts, sc') →
      ts.length = es.length ∧
      ∀ sc'' : NamedVars, (∀ (x : String) (v : TyVar), sc'.vars[x]? = some v → sc''.vars[x]? = some v) →
        Resolve.start (table.resolveList NamedVars.ofName es) sc'' = (.ok ts, sc'') ∧
          (Ty.varsList ts).map some = (TypeExpr.varNamesList es).map (sc''.vars[·]?) := by
  induction es with
  | nil =>
      intro sc sc' ts h
      obtain ⟨rfl, rfl⟩ := Resolve.start_pure_ok.mp h
      exact ⟨rfl, fun sc'' _ => ⟨rfl, rfl⟩⟩
  | cons e es ihes =>
      intro sc sc' ts h
      obtain ⟨t, sc₁, ht, us, sc₂, hus, rfl, rfl⟩ := start_resolveList_cons.mp h
      have hextends := (Resolve.Extending.resolveList fun e _ => .resolveWith e).of_start hus
      have hsettles := ih e List.mem_cons_self ht
      obtain ⟨hlength, hall⟩ := ihes (fun e' he' => ih e' (List.mem_cons_of_mem e he')) hus
      refine ⟨congrArg (· + 1) hlength, fun sc'' hknown => ?_⟩
      -- what is known after the first member is still known after all of them
      obtain ⟨hfirst, hvars⟩ := hsettles sc'' fun x v hv => hknown x v (hextends.keeps x v hv)
      obtain ⟨hrest, hvarsList⟩ := hall sc'' hknown
      refine ⟨start_resolveList_cons.mpr ⟨t, sc'', hfirst, us, sc'', hrest, rfl, rfl⟩, ?_⟩
      rw [Ty.varsList, TypeExpr.varNamesList, List.map_append, List.map_append, hvars, hvarsList]

theorem resolveWith_settles (hc : table.Closed) (e : TypeExpr) :
    ∀ {sc sc' : NamedVars} {t : Ty},
      Resolve.start (table.resolveWith NamedVars.ofName e) sc = (.ok t, sc') → table.Settles sc' e t := by
  induction e with
  | con name args ih =>
      intro sc sc' t h sc'' hknown
      rcases start_resolveWith_con.mp h with ⟨hd, rfl⟩ | ⟨hd, ts, sc₁, hts, rfl, rfl⟩
      · obtain ⟨hargs, hclosed⟩ := denote_closed hd
        obtain rfl := List.length_eq_zero_iff.mp hargs
        refine ⟨start_resolveWith_con.mpr (Or.inl ⟨hd, rfl⟩), ?_⟩
        rw [closed?_vars hc hclosed]
        rfl
      · obtain ⟨-, hall⟩ := resolveList_settles ih hts
        obtain ⟨hrun, hvars⟩ := hall sc'' hknown
        exact ⟨start_resolveWith_con.mpr (Or.inr ⟨hd, ts, sc'', hrun, rfl, rfl⟩), hvars⟩
  | var x =>
      intro sc sc' t h sc'' hknown
      have hrecorded : ∃ v, t = .var v ∧ sc'.vars[x]? = some v := by
        rw [resolveWith, NamedVars.start_ofName] at h
        split at h
        · next v hv =>
            cases h
            exact ⟨v, rfl, hv⟩
        · cases h
          exact ⟨sc.next, rfl, by simp [NamedVars.getElem?_draw]⟩
      obtain ⟨v, rfl, hv⟩ := hrecorded
      have hv := hknown x v hv
      refine ⟨?_, ?_⟩
      · rw [resolveWith, NamedVars.start_ofName, hv]
      · rw [Ty.vars, TypeExpr.varNames, List.map_singleton, List.map_singleton, hv]
  | arrow dom cod ihd ihc =>
      intro sc sc' t h sc'' hknown
      obtain ⟨a, sc₁, ha, b, sc₂, hb, rfl, rfl⟩ := start_resolveWith_arrow.mp h
      have hextends := (Resolve.Extending.resolveWith cod).of_start hb
      obtain ⟨hdom, hvarsDom⟩ := ihd ha sc'' fun x v hv => hknown x v (hextends.keeps x v hv)
      obtain ⟨hcod, hvarsCod⟩ := ihc hb sc'' hknown
      refine ⟨start_resolveWith_arrow.mpr ⟨a, sc'', hdom, b, sc'', hcod, rfl, rfl⟩, ?_⟩
      rw [Ty.vars, TypeExpr.varNames, List.map_append, List.map_append, hvarsDom, hvarsCod]
  | tuple elems ih =>
      intro sc sc' t h sc'' hknown
      obtain ⟨ts, sc₁, hts, rfl, rfl⟩ := start_resolveWith_tuple.mp h
      obtain ⟨-, hall⟩ := resolveList_settles ih hts
      obtain ⟨hrun, hvars⟩ := hall sc'' hknown
      exact ⟨start_resolveWith_tuple.mpr ⟨ts, sc'', hrun, rfl, rfl⟩, hvars⟩
  | record fields ih =>
      intro sc sc' t h sc'' hknown
      obtain ⟨ts, sc₁, hts, rfl, rfl⟩ := start_resolveWith_record.mp h
      obtain ⟨hlength, hall⟩ := resolveList_settles (List.forall_mem_map.mpr ih) hts
      obtain ⟨hrun, hvars⟩ := hall sc'' hknown
      refine ⟨start_resolveWith_record.mpr ⟨ts, sc'', hrun, rfl, rfl⟩, ?_⟩
      have hsnd : ((fields.map Prod.fst).zip ts).map Prod.snd = ts := by
        refine List.map_snd_zip ?_
        rw [hlength, List.length_map, List.length_map]
      rw [Ty.vars, Ty.varsFields_eq, hsnd, ← Ty.varsList_eq, TypeExpr.varNames, TypeExpr.varNamesFields_eq, hvars]

end TypeTable

/-! ## Ascriptions -/

namespace Registry

/-- **Names are resolved consistently.** Resolving an ascription, whether it succeeds or fails, adds the names that it
comes to and that have no variable yet, and gives them the variables from the next one on, in the order in which it
comes to them first; nothing else changes, and names stay apart.  It succeeds if all names of types have a meaning, and
then it has come to all names of variables, its type has exactly the variables that stand for them, and resolving the
ascription again gives the same type and draws nothing. -/
theorem resolveAscription_names {decls : List Decl} {r : Registry} (hbuild : build decls = .ok r) {e : TypeExpr}
    {sc sc' : NamedVars} (hsc : sc.Distinct) {res : Except TypeError Ty}
    (h : Resolve.start (r.resolveAscription e) sc = (res, sc')) :
    r.visited e <+: e.varNames ∧
      sc.Adds (sc.newNames (r.visited e)) sc' ∧
      (∀ x ∈ sc.newNames (r.visited e), x ∈ e.varNames) ∧
      sc'.Distinct ∧
      res.isOk = e.mentions.all (Mention.accepted r.toTypeTable) ∧
      ∀ t, res = .ok t →
        r.visited e = e.varNames ∧
        (∀ v, v ∈ t.freeVars ↔ ∃ x ∈ e.varNames, sc'.vars[x]? = some v) ∧
        ∀ n, Resolve.start (r.resolveAscription e) { sc' with next := n } = (.ok t, { sc' with next := n }) := by
  have hinitial := r.visited_initial e
  have hadds := TypeTable.adds_resolveWith h
  refine ⟨hinitial, hadds, fun x hx => hinitial.subset (NamedVars.mem_newNames.mp hx).1, hadds.distinct hsc,
    TypeTable.isOk_resolveWith h, ?_⟩
  rintro t rfl
  have hsettles := TypeTable.resolveWith_settles (build_wellFormed hbuild).synonym_closed e h
  refine ⟨TypeTable.visited_of_ok h, fun v => ?_, fun n => ?_⟩
  · obtain ⟨-, hvars⟩ := hsettles sc' fun _ _ hv => hv
    have hmem : some v ∈ t.vars.map some ↔ some v ∈ e.varNames.map (sc'.vars[·]?) := by rw [hvars]
    simpa using hmem
  · exact (hsettles { sc' with next := n } fun _ _ hv => hv).1

/-- Options, and a synonym. -/
def optionalDecls : List Decl :=
  [.sum "Option" ["a"] [⟨"None", []⟩, ⟨"Some", [.var "a"]⟩], .synonym "Flag" (.con "Bool" [])]

/-- One name has been met before. -/
def met : NamedVars := { vars := (∅ : Std.ExtTreeMap String TyVar).insert "a" 3, next := 5 }

theorem met_distinct : met.Distinct := by
  have hsole : ∀ x v, met.vars[x]? = some v → "a" = x ∧ 3 = v := by
    intro x v hx
    simpa [met, Std.ExtTreeMap.getElem?_insert] using hx
  refine ⟨fun x v hx => ?_, fun x y v hx hy => ?_⟩
  · rw [← (hsole x v hx).2]
    decide
  · exact (hsole x v hx).1.symm.trans (hsole y v hy).1

/-- An ascription that fails on the way, between names that are met and names that are not. -/
def unfinished : TypeExpr :=
  .tuple [.var "c", .con "Option" [.var "a"], .arrow (.var "b") (.con "Lost" [.var "d"]), .var "e"]

/-- An ascription with a synonym and with names that come back. -/
def finished : TypeExpr :=
  .arrow (.con "Option" [.var "b"]) (.tuple [.con "Flag" [], .var "d", .var "a", .var "b"])

/-- The second ascription goes on from where the first one has failed. -/
theorem resolveAscription_names_resumed :
    ∃ (r : Registry) (err : TypeError) (t : Ty) (sc sc' : NamedVars), build optionalDecls = .ok r ∧ met.Distinct ∧
      Resolve.start (r.resolveAscription unfinished) met = (.error err, sc) ∧
      met.Adds ["c", "b"] sc ∧ sc.Distinct ∧
      Resolve.start (r.resolveAscription finished) sc = (.ok t, sc') ∧
      sc.Adds ["d"] sc' ∧
      (∀ v, v ∈ t.freeVars ↔ ∃ x ∈ ["b", "d", "a", "b"], sc'.vars[x]? = some v) ∧
      Resolve.start (r.resolveAscription finished) sc' = (.ok t, sc') := by
  have heval : (build optionalDecls).toOption.map (fun r => (met.newNames (r.visited unfinished),
      (Resolve.start (r.resolveAscription unfinished) met).1.toOption.isSome,
      (Resolve.start (r.resolveAscription unfinished) met).2.newNames (r.visited finished),
      (Resolve.start (r.resolveAscription finished)
        (Resolve.start (r.resolveAscription unfinished) met).2).1.toOption.isSome)) =
      some (["c", "b"], false, ["d"], true) := rfl
  obtain ⟨r, hopt, hfacts⟩ := Option.map_eq_some_iff.mp heval
  have hbuild := eq_ok_of_toOption hopt
  obtain ⟨res, sc, hfail⟩ : ∃ res sc, Resolve.start (r.resolveAscription unfinished) met = (res, sc) := ⟨_, _, rfl⟩
  obtain ⟨res', sc', hdone⟩ : ∃ res' sc', Resolve.start (r.resolveAscription finished) sc = (res', sc') := ⟨_, _, rfl⟩
  simp only [Prod.mk.injEq, hfail, hdone] at hfacts
  obtain ⟨hnew, herr, hnew', hok⟩ := hfacts
  cases res with
  | ok t => cases herr
  | error err =>
      cases res' with
      | error err => cases hok
      | ok t =>
          obtain ⟨-, hadds, -, hdistinct, -, -⟩ := resolveAscription_names hbuild met_distinct hfail
          obtain ⟨-, hadds', -, -, -, hsuccess⟩ := resolveAscription_names hbuild hdistinct hdone
          obtain ⟨-, hfree, hagain⟩ := hsuccess t rfl
          exact ⟨r, err, t, sc, sc', hbuild, met_distinct, hfail, hnew ▸ hadds, hdistinct, hdone, hnew' ▸ hadds', hfree,
            hagain sc'.next⟩

end Registry

end Polytype
