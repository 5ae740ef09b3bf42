/-
# Polytype.Proofs.Inference.PatternNames — the names in patterns.

A pattern gives names to parts of a value, and these names matter to nobody but the body of its arm.  So
patterns are compared with their names left out (`Pattern.unnamed`).  Coverage cannot tell a pattern from
the one without names (`gaps_unnamed`), and neither can inference, except that it gives back the names
with their types (`pattern_unnamed`).  Hence patterns that differ in names only are typed alike, and the
one result is the other one under the other names (`pattern_relabel`).
-/
import Polytype.Proofs.Inference.Lockstep
import Polytype.Proofs.Registry.Erasure

namespace Polytype

/-! ## Names -/

namespace Pattern

mutual
/-- The names that a pattern binds, from left to right. -/
def binders : Pattern → List String
  | .wildcard => []
  | .var name => [name]
  | .int _ => []
  | .bool _ => []
  | .con _ args => bindersList args
  | .tuple elems => bindersList elems
  | .record fields => bindersFields fields
/-- The names that the patterns of a list bind. -/
def bindersList : List Pattern → List String
  | [] => []
  | p :: ps => binders p ++ bindersList ps
/-- The names that labelled patterns bind. -/
def bindersFields : List (String × Pattern) → List String
  | [] => []
  | (_, p) :: fs => binders p ++ bindersFields fs
end

mutual
/-- The pattern with all its names left out. -/
def unnamed : Pattern → Pattern
  | .wildcard => .wildcard
  | .var _ => .var ""
  | .int n => .int n
  | .bool b => .bool b
  | .con name args => .con name (unnamedList args)
  | .tuple elems => .tuple (unnamedList elems)
  | .record fields => .record (unnamedFields fields)
/-- Leaves out the names in every pattern of a list. -/
def unnamedList : List Pattern → List Pattern
  | [] => []
  | p :: ps => unnamed p :: unnamedList ps
/-- Leaves out the names in labelled patterns; the labels stay. -/
def unnamedFields : List (String × Pattern) → List (String × Pattern)
  | [] => []
  | (l, p) :: fs => (l, unnamed p) :: unnamedFields fs
end

theorem bindersFields_eq (fs : List (String × Pattern)) :
    bindersFields fs = bindersList (fs.map Prod.snd) := by
  induction fs with
  | nil => rfl
  | cons f fs ih => rw [bindersFields, ih, List.map_cons, bindersList]

theorem unnamedList_eq (ps : List Pattern) : unnamedList ps = ps.map unnamed := by
  induction ps with
  | nil => rfl
  | cons p ps ih => rw [unnamedList, ih, List.map_cons]

theorem unnamedFields_eq (fs : List (String × Pattern)) :
    unnamedFields fs = fs.map fun f => (f.1, f.2.unnamed) := by
  induction fs with
  | nil => rfl
  | cons f fs ih => rw [unnamedFields, ih, List.map_cons]

@[simp]
theorem isIrrefutable_unnamed (p : Pattern) : p.unnamed.isIrrefutable = p.isIrrefutable := by
  cases p <;> rfl

theorem length_bindersList_unnamed {ps : List Pattern}
    (ih : ∀ p ∈ ps, p.unnamed.binders.length = p.binders.length) :
    (bindersList (ps.map unnamed)).length = (bindersList ps).length := by
  induction ps with
  | nil => rfl
  | cons p ps ihps =>
      rw [List.map_cons, bindersList, bindersList, List.length_append, List.length_append,
        ih p List.mem_cons_self, ihps fun q hq => ih q (List.mem_cons_of_mem p hq)]

theorem length_binders_unnamed (p : Pattern) : p.unnamed.binders.length = p.binders.length := by
  induction p with
  | con name args ih =>
      rw [unnamed, unnamedList_eq, binders, binders]
      exact length_bindersList_unnamed ih
  | tuple elems ih =>
      rw [unnamed, unnamedList_eq, binders, binders]
      exact length_bindersList_unnamed ih
  | record fields ih =>
      have hlist := length_bindersList_unnamed (List.forall_mem_map.mpr ih)
      rw [unnamed, unnamedFields_eq, binders, binders, bindersFields_eq, bindersFields_eq, ← hlist,
        List.map_map, List.map_map]
      rfl
  | _ => rfl

/-- Patterns that differ in names only bind equally many of them. -/
theorem length_binders_of_unnamed {p q : Pattern} (h : p.unnamed = q.unnamed) :
    p.binders.length = q.binders.length := by
  rw [← length_binders_unnamed p, h, length_binders_unnamed]

end Pattern

/-! ## Coverage -/

namespace Coverage

open Pattern (unnamed)

theorem rowOf?_unnamed (c : String) (p : Pattern) :
    rowOf? c p.unnamed = (rowOf? c p).map (List.map unnamed) := by
  cases p with
  | con d args =>
      rw [unnamed, Pattern.unnamedList_eq, rowOf?, rowOf?]
      split <;> rfl
  | _ => rfl

theorem rowsOf_unnamed (c : String) (ps : List Pattern) :
    rowsOf c (ps.map unnamed) = (rowsOf c ps).map (List.map unnamed) := by
  rw [rowsOf, rowsOf, List.filterMap_map, List.map_filterMap]
  exact List.filterMap_congr fun p _ => rowOf?_unnamed c p

theorem tests_unnamed (row : List Pattern) :
    tests (row.map unnamed) = (tests row).map (Prod.map unnamed id) := by
  rw [tests, tests, List.zipIdx_map, List.filter_map]
  simp [Function.comp_def]

theorem soleTest?_unnamed (i : Nat) (row : List Pattern) :
    soleTest? i (row.map unnamed) = (soleTest? i row).map unnamed := by
  rw [soleTest?, soleTest?, tests_unnamed]
  match tests row with
  | [] => rfl
  | [(p, j)] =>
      simp only [List.map_cons, List.map_nil, Prod.map_apply, id_eq]
      split <;> rfl
  | _ :: _ :: _ => rfl

theorem column_unnamed (c : String) (i : Nat) (ps : List Pattern) :
    column c i (ps.map unnamed) = (column c i ps).map unnamed := by
  rw [column, column, rowsOf_unnamed, List.filterMap_map, List.map_filterMap]
  exact List.filterMap_congr fun row _ => soleTest?_unnamed i row

theorem constructorGaps_unnamed (c : String) (arity : Nat) (rows : List (List Pattern))
    (gapsAt : Nat → Except TypeError (List Gap)) :
    constructorGaps c arity (rows.map (List.map unnamed)) gapsAt =
      constructorGaps c arity rows gapsAt := by
  unfold constructorGaps
  simp only [List.any_map, Function.comp_def, tests_unnamed, soleTest?_unnamed, List.length_map,
    List.isEmpty_map, Option.isSome_map]

theorem requireKnown_unnamed (r : Registry) (ps : List Pattern) :
    requireKnown r (ps.map unnamed) = requireKnown r ps := by
  induction ps with
  | nil => rfl
  | cons p ps ih => cases p <;> simp only [List.map_cons, unnamed, requireKnown, ih]

theorem constructorCheck_unnamed {r : Registry} {ps : List Pattern} {d : String}
    (ih : ∀ i, gaps r ((column d i ps).map unnamed) = gaps r (column d i ps)) :
    constructorCheck r (ps.map unnamed) d = constructorCheck r ps d := by
  simp only [constructorCheck, rowsOf_unnamed, column_unnamed, constructorGaps_unnamed, ih]

/-- What patterns leave out does not depend on their names. -/
theorem gaps_unnamed (r : Registry) (ps : List Pattern) : gaps r (ps.map unnamed) = gaps r ps := by
  induction hn : Pattern.sizeList ps using Nat.strongRecOn generalizing ps with
  | ind n ih =>
      have hany : (ps.map unnamed).any Pattern.isIrrefutable = ps.any Pattern.isIrrefutable := by
        simp [Function.comp_def]
      cases hirr : ps.any Pattern.isIrrefutable with
      | true => rw [gaps_of_irrefutable (hany.trans hirr), gaps_of_irrefutable hirr]
      | false =>
          have hirr' := hany.trans hirr
          cases ps with
          | nil => rfl
          | cons p ps =>
              cases p with
              | con c args =>
                  have hcheck : ∀ d, constructorCheck r ((Pattern.con c args :: ps).map unnamed) d =
                      constructorCheck r (.con c args :: ps) d := fun d =>
                    constructorCheck_unnamed fun i =>
                      ih _ (hn ▸ sizeList_column_lt d i (List.cons_ne_nil _ _)) _ rfl
                  have hknown := requireKnown_unnamed r (.con c args :: ps)
                  have hrows : ∀ d, (rowsOf d ((Pattern.con c args :: ps).map unnamed)).isEmpty =
                      (rowsOf d (.con c args :: ps)).isEmpty := fun d => by
                    rw [rowsOf_unnamed, List.isEmpty_map]
                  rw [List.map_cons, unnamed] at hcheck hknown hrows hirr' ⊢
                  rw [gaps_con hirr', gaps_con hirr, hknown, funext hcheck]
                  simp only [hrows]
              | int k =>
                  have hints : ((Pattern.int k :: ps).map unnamed).filterMap int? =
                      (Pattern.int k :: ps).filterMap int? := by
                    rw [List.filterMap_map]
                    exact List.filterMap_congr fun p _ => by cases p <;> rfl
                  rw [List.map_cons, unnamed] at hints hirr' ⊢
                  rw [gaps_int hirr', gaps_int hirr, hints]
              | bool b =>
                  have hbools : ∀ b', ((Pattern.bool b :: ps).map unnamed).any (isBool b') =
                      (Pattern.bool b :: ps).any (isBool b') := by
                    intro b'
                    rw [List.any_map]
                    exact List.any_congr rfl fun p => by cases p <;> rfl
                  rw [List.map_cons, unnamed] at hbools hirr' ⊢
                  rw [gaps_bool hirr', gaps_bool hirr]
                  simp only [hbools]
              | wildcard => cases hirr
              | var name => cases hirr
              | _ =>
                  rw [List.map_cons, unnamed] at hirr' ⊢
                  rw [gaps.eq_def, gaps.eq_def, hirr', hirr]

theorem missingCases_of_unnamed (r : Registry) {ps qs : List Pattern} (h : ps.map unnamed = qs.map unnamed) :
    missingCases r ps = missingCases r qs := by
  rw [missingCases, missingCases, ← gaps_unnamed r ps, h, gaps_unnamed]

end Coverage

/-! ## Typing -/

namespace PatternTyping

/-- The typing with the names of variables left out. -/
def unnamed (pt : PatternTyping) : PatternTyping := { pt with bindings := pt.bindings.map fun b => ("", b.2) }

/-- The typing with other names for the variables, in order. -/
def relabel (names : List String) (pt : PatternTyping) : PatternTyping :=
  { pt with bindings := names.zip (pt.bindings.map Prod.snd) }

theorem eq_relabel {pt pt' : PatternTyping} (h : pt.unnamed = pt'.unnamed) :
    pt' = pt.relabel (pt'.bindings.map Prod.fst) := by
  obtain ⟨hsubst, hbindings⟩ := PatternTyping.mk.inj h
  have htypes : pt.bindings.map Prod.snd = pt'.bindings.map Prod.snd := by
    simpa [Function.comp_def] using congrArg (List.map Prod.snd) hbindings
  obtain ⟨subst, bindings⟩ := pt
  obtain ⟨subst', bindings'⟩ := pt'
  simp only [relabel, htypes, mk.injEq]
  refine ⟨hsubst.symm, ?_⟩
  rw [List.zip_map', List.map_id']

end PatternTyping

namespace Infer

variable {r : Registry}

theorem patternList_binds {ps : List Pattern}
    (ih : ∀ p ∈ ps, ∀ {t : Ty} {st st' : InferState} {pt : PatternTyping},
      (pattern r p t).start st = (.ok pt, st') → pt.bindings.map Prod.fst = p.binders) :
    ∀ {ts : List Ty} {s : Subst} {st st' : InferState} {pt : PatternTyping},
      ps.length = ts.length → (patternList r ps ts s).start st = (.ok pt, st') →
      pt.bindings.map Prod.fst = Pattern.bindersList ps := by
  induction ps with
  | nil =>
      intro ts s st st' pt _ h
      obtain ⟨rfl, -⟩ := start_patternList_nil.mp h
      rfl
  | cons p ps ihps =>
      intro ts s st st' pt hlen h
      cases ts with
      | nil => cases hlen
      | cons t ts =>
          obtain ⟨here, st₁, rest, st₂, hp, hps, rfl, -⟩ := start_patternList_cons.mp h
          rw [List.map_append, ih p List.mem_cons_self hp,
            ihps (fun q hq => ih q (List.mem_cons_of_mem p hq)) (Nat.succ.inj hlen) hps]
          rfl

/-- The typing of a pattern has the names that the pattern binds. -/
theorem pattern_binds (p : Pattern) :
    ∀ {t : Ty} {st st' : InferState} {pt : PatternTyping},
      (pattern r p t).start st = (.ok pt, st') → pt.bindings.map Prod.fst = p.binders := by
  induction p with
  | wildcard =>
      intro t st st' pt h
      obtain ⟨rfl, -⟩ := start_pure_ok.mp h
      rfl
  | var name =>
      intro t st st' pt h
      obtain ⟨rfl, -⟩ := start_pure_ok.mp h
      rfl
  | int n =>
      intro t st st' pt h
      obtain ⟨s, -, rfl, -⟩ := start_pattern_int.mp h
      rfl
  | bool b =>
      intro t st st' pt h
      obtain ⟨s, -, rfl, -⟩ := start_pattern_bool.mp h
      rfl
  | con name args ih =>
      intro t st st' pt h
      obtain ⟨info, -, hlen, u, -, h⟩ := start_pattern_con.mp h
      exact patternList_binds ih (hlen.trans (length_instantiate _ _).symm) h
  | tuple elems ih =>
      intro t st st' pt h
      obtain ⟨u, -, h⟩ := start_pattern_tuple.mp h
      exact patternList_binds ih (length_freshTys _ _).symm h
  | record fields ih =>
      intro t st st' pt h
      obtain ⟨s, ts, st₁, hfields, h⟩ := start_pattern_record.mp h
      rw [Pattern.binders, Pattern.bindersFields_eq]
      exact patternList_binds (List.forall_mem_map.mpr ih) (recordFields_length hfields) h

theorem coverage_of_unnamed (c : InferContext) {ps qs : List Pattern}
    (h : ps.map Pattern.unnamed = qs.map Pattern.unnamed) : coverage c ps = coverage c qs := by
  rw [coverage, coverage, Coverage.missingCases_of_unnamed c.registry h]

/-- A computation goes in lockstep with itself. -/
theorem lockstep_self {α : Type} (x : Infer α) : Lockstep SameFault id id x x := .refl SameFault.refl x

theorem patternList_unnamed {ps : List Pattern}
    (ih : ∀ p ∈ ps, ∀ t, Lockstep SameFault id PatternTyping.unnamed (pattern r p t)
      (pattern r p.unnamed t)) :
    ∀ ts s, Lockstep SameFault id PatternTyping.unnamed (patternList r ps ts s)
      (patternList r (ps.map Pattern.unnamed) ts s) := by
  induction ps with
  | nil =>
      intro ts s
      cases ts <;> exact .pure rfl
  | cons p ps ihps =>
      intro ts s
      cases ts with
      | nil => exact .pure rfl
      | cons t ts =>
          rw [List.map_cons, patternList, patternList]
          refine Lockstep.bind (ih p List.mem_cons_self _) fun here _ => ?_
          refine Lockstep.bind (ihps (fun q hq => ih q (List.mem_cons_of_mem p hq)) ts _) fun rest _ => ?_
          exact .pure (by simp [PatternTyping.unnamed])

/-- Without its names a pattern is typed in the same way, and the names are all that is missing. -/
theorem pattern_unnamed (p : Pattern) : ∀ t, Lockstep SameFault id PatternTyping.unnamed (pattern r p t)
    (pattern r p.unnamed t) := by
  induction p with
  | wildcard => exact fun t => .pure rfl
  | var name => exact fun t => .pure rfl
  | int n => exact fun t => Lockstep.bind (lockstep_self _) fun s _ => .pure rfl
  | bool b => exact fun t => Lockstep.bind (lockstep_self _) fun s _ => .pure rfl
  | con name args ih =>
      intro t
      rw [Pattern.unnamed, Pattern.unnamedList_eq, pattern, pattern, List.length_map]
      refine Lockstep.bind (lockstep_self _) fun con _ => Lockstep.bind (lockstep_self _) fun s _ => ?_
      exact patternList_unnamed ih _ _
  | tuple elems ih =>
      intro t
      rw [Pattern.unnamed, Pattern.unnamedList_eq, pattern, pattern, List.length_map]
      refine Lockstep.bind (lockstep_self _) fun ts _ => Lockstep.bind (lockstep_self _) fun s _ => ?_
      exact patternList_unnamed ih _ _
  | record fields ih =>
      intro t
      have hlabels : Fields.labels (fields.map fun f => (f.1, f.2.unnamed)) = Fields.labels fields := by
        simp [Fields.labels]
      have hlist := patternList_unnamed (List.forall_mem_map.mpr ih)
      rw [List.map_map] at hlist
      rw [Pattern.unnamed, Pattern.unnamedFields_eq, pattern, pattern, hlabels]
      refine Lockstep.bind (lockstep_self _) fun res _ => ?_
      simp only [patternFields_eq, List.map_map]
      exact hlist _ _

/-- Patterns that differ in names only are typed alike; the typing of the one has the names of the other. -/
theorem pattern_relabel {p q : Pattern} (h : p.unnamed = q.unnamed) (t : Ty) :
    Lockstep SameFault id (PatternTyping.relabel q.binders) (pattern r p t) (pattern r q t) := by
  intro st
  obtain ⟨hp, hpst⟩ := pattern_unnamed (r := r) p t st
  obtain ⟨hq, hqst⟩ := pattern_unnamed (r := r) q t st
  rw [h, hqst] at hpst
  refine ⟨?_, hpst⟩
  rw [h] at hp
  rcases hrun : (pattern r p t).run.run st with ⟨res, st₁⟩
  rcases hrun' : (pattern r q t).run.run st with ⟨res', st₁'⟩
  simp only [id_eq, hrun, hrun'] at hp hq ⊢
  -- both go with the run on the pattern without names
  generalize ((pattern r q.unnamed t).run.run st).1 = plain at hp hq
  cases hp with
  | ok pt =>
      generalize hplain : (.ok pt.unnamed : Except TypeError PatternTyping) = plain at hq
      cases hq with
      | ok pt' =>
          have hnames := pattern_binds q hrun'
          have hpt := PatternTyping.eq_relabel (Except.ok.inj hplain)
          rw [hnames] at hpt
          exact .ok_of_eq hpt
      | error _ => cases hplain
  | @error e e₀ he =>
      generalize hplain : (.error e₀ : Except TypeError PatternTyping) = plain at hq
      cases hq with
      | ok _ => cases hplain
      | error he' =>
          cases hplain
          exact .error (he'.symm.trans he)

end Infer

end Polytype
