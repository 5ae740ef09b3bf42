/-
# Polytype.Proofs.Coverage.Totality — when the coverage check gives an answer.

The check looks up every constructor that it meets and fails on one that is not declared.  It meets no
constructors but those of the patterns, at whatever depth, so it gives an answer whenever these are all
declared (`Pattern.Known`, `gaps_total`); what the patterns are about plays no role.

The induction is that of the check, on the size of the patterns.  It goes from a list of patterns to
its columns: `constructorCheck` is the part of the check for one constructor, and `gaps_con` puts the
parts together.  What the check says about one constructor is one of four things (`ConstructorAnswer`).
-/
import Polytype.Coverage
import Polytype.Proofs.Run

namespace Polytype

variable {r : Registry}

/-- The constructors that stand in the pattern, at any depth, are declared. -/
inductive Pattern.Known (r : Registry) : Pattern → Prop
  | wildcard : Known r .wildcard
  | var (name : String) : Known r (.var name)
  | int (n : Int) : Known r (.int n)
  | bool (b : Bool) : Known r (.bool b)
  | con {name : String} {info : ConstructorInfo} {args : List Pattern} :
      r.constructors[name]? = some info → (∀ p ∈ args, Known r p) → Known r (.con name args)
  | tuple {elems : List Pattern} : (∀ p ∈ elems, Known r p) → Known r (.tuple elems)
  | record {fields : List (String × Pattern)} :
      (∀ f ∈ fields, Known r f.2) → Known r (.record fields)

namespace Coverage

/-! ## Rows, tests and columns -/

theorem mem_rowsOf {c : String} {row : List Pattern} {ps : List Pattern} :
    row ∈ rowsOf c ps ↔ .con c row ∈ ps := by
  rw [rowsOf, List.mem_filterMap]
  constructor
  · rintro ⟨p, hp, hrow⟩
    cases p with
    | con d args =>
        rw [rowOf?] at hrow
        split at hrow
        · next hd =>
            cases hrow
            exact hd ▸ hp
        · cases hrow
    | _ => cases hrow
  · exact fun h => ⟨_, h, by simp [rowOf?]⟩

theorem mem_tests {p : Pattern} {i : Nat} {row : List Pattern} :
    (p, i) ∈ tests row ↔ row[i]? = some p ∧ p.isIrrefutable = false := by
  rw [tests, List.mem_filter, List.mk_mem_zipIdx_iff_getElem?]
  simp

theorem soleTest?_eq_some {i : Nat} {row : List Pattern} {p : Pattern} :
    soleTest? i row = some p ↔ tests row = [(p, i)] := by
  unfold soleTest?
  split
  · next q j htests =>
      rw [htests]
      by_cases hji : j = i
      · simp [hji]
      · simp [hji]
  · next hne =>
      constructor
      · intro h
        cases h
      · intro h
        exact absurd h (hne p i)

theorem any_isBool {b : Bool} {ps : List Pattern} : ps.any (isBool b) = true ↔ .bool b ∈ ps := by
  rw [List.any_eq_true]
  constructor
  · rintro ⟨p, hp, hb⟩
    cases p with
    | bool b' =>
        obtain rfl : b' = b := by simpa [isBool] using hb
        exact hp
    | _ => cases hb
  · exact fun hb => ⟨_, hb, by simp [isBool]⟩

/-- Where the only test of a row stands in it. -/
theorem getElem?_of_sole {i : Nat} {row : List Pattern} {p : Pattern} (h : tests row = [(p, i)]) :
    row[i]? = some p := by
  have hmem : (p, i) ∈ tests row := h ▸ List.mem_singleton_self _
  exact (mem_tests.mp hmem).1

theorem mem_column {c : String} {i : Nat} {ps : List Pattern} {p : Pattern} :
    p ∈ column c i ps ↔ ∃ row, .con c row ∈ ps ∧ tests row = [(p, i)] := by
  rw [column, List.mem_filterMap]
  simp only [mem_rowsOf, soleTest?_eq_some]

/-! ## The parts of the check -/

theorem columnGaps_total {gapsAt : Nat → Except TypeError (List Gap)} {describe : Nat → Gap → Gap}
    {cols : List Nat} (h : ∀ i ∈ cols, ∃ here, gapsAt i = .ok here) :
    ∃ res, columnGaps gapsAt describe cols = .ok res := by
  induction cols with
  | nil => exact ⟨_, rfl⟩
  | cons i cols ih =>
      obtain ⟨here, hhere⟩ := h i List.mem_cons_self
      obtain ⟨later, hlater⟩ := ih fun j hj => h j (List.mem_cons_of_mem i hj)
      rw [columnGaps, hhere]
      cases here with
      | nil => exact ⟨none, rfl⟩
      | cons g gs => exact ⟨_, bind_eq_ok_iff.mpr ⟨_, rfl, bind_eq_ok_iff.mpr ⟨later, hlater, rfl⟩⟩⟩

theorem constructorGaps_total {c : String} {arity : Nat} {rows : List (List Pattern)}
    {gapsAt : Nat → Except TypeError (List Gap)} (h : ∀ i, ∃ here, gapsAt i = .ok here) :
    ∃ gs, constructorGaps c arity rows gapsAt = .ok gs := by
  unfold constructorGaps
  split
  · exact ⟨[], rfl⟩
  · have hcols : ∃ res, columnGaps gapsAt (Gap.atArg c arity)
        ((List.range arity).filter fun i => rows.any fun row => (soleTest? i row).isSome) = .ok res :=
      columnGaps_total fun i _ => h i
    obtain ⟨res, hres⟩ := hcols
    dsimp only
    rw [hres]
    cases res with
    | none => exact ⟨[], rfl⟩
    | some gs =>
        by_cases hmany : (rows.any fun row => 1 < (tests row).length) = true
        · exact ⟨_, bind_eq_ok_iff.mpr ⟨some gs, rfl, if_pos hmany⟩⟩
        · exact ⟨_, bind_eq_ok_iff.mpr ⟨some gs, rfl, if_neg hmany⟩⟩

section Columns

variable {gapsAt : Nat → Except TypeError (List Gap)} {describe : Nat → Gap → Gap} {cols : List Nat}

theorem columnGaps_none (h : columnGaps gapsAt describe cols = .ok none) :
    ∃ i ∈ cols, gapsAt i = .ok [] := by
  induction cols with
  | nil => cases h
  | cons i cols ih =>
      rw [columnGaps, bind_eq_ok_iff] at h
      obtain ⟨here, hhere, h⟩ := h
      cases here with
      | nil => exact ⟨i, List.mem_cons_self, hhere⟩
      | cons g gs =>
          obtain ⟨later, hlater, h⟩ := bind_eq_ok_iff.mp h
          cases later with
          | some later => cases h
          | none =>
              obtain ⟨j, hj, hgaps⟩ := ih hlater
              exact ⟨j, List.mem_cons_of_mem i hj, hgaps⟩

/-- Where columns have gaps, all of them do; their gaps are reported, and no others. -/
theorem columnGaps_some {gs : List Gap} (h : columnGaps gapsAt describe cols = .ok (some gs)) :
    (∀ i ∈ cols, ∃ here, gapsAt i = .ok here ∧ here ≠ [] ∧ ∀ g ∈ here, describe i g ∈ gs) ∧
      ∀ g ∈ gs, ∃ i ∈ cols, ∃ here, gapsAt i = .ok here ∧ ∃ g' ∈ here, describe i g' = g := by
  induction cols generalizing gs with
  | nil =>
      cases h
      simp
  | cons i cols ih =>
      rw [columnGaps, bind_eq_ok_iff] at h
      obtain ⟨here, hhere, h⟩ := h
      cases here with
      | nil => cases h
      | cons g₀ gs₀ =>
          obtain ⟨later, hlater, h⟩ := bind_eq_ok_iff.mp h
          cases later with
          | none => cases h
          | some later =>
              cases h
              obtain ⟨hgaps, hmem⟩ := ih hlater
              refine ⟨List.forall_mem_cons.mpr ⟨⟨_, hhere, List.cons_ne_nil _ _, fun g hg => ?_⟩, fun j hj => ?_⟩,
                fun g hg => ?_⟩
              · exact List.mem_append_left _ (List.mem_map.mpr ⟨g, hg, rfl⟩)
              · obtain ⟨there, hthere, hne, hsub⟩ := hgaps j hj
                exact ⟨there, hthere, hne, fun g hg => List.mem_append_right _ (hsub g hg)⟩
              · rcases List.mem_append.mp hg with hg | hg
                · obtain ⟨g', hg', rfl⟩ := List.mem_map.mp hg
                  exact ⟨i, List.mem_cons_self, _, hhere, g', hg', rfl⟩
                · obtain ⟨j, hj, hrest⟩ := hmem g hg
                  exact ⟨j, List.mem_cons_of_mem i hj, hrest⟩

end Columns

section Constructor

variable {c : String} {arity : Nat} {rows : List (List Pattern)}
  {gapsAt : Nat → Except TypeError (List Gap)} {gs : List Gap}

/-- The columns that some row tests by itself. -/
def testedColumns (arity : Nat) (rows : List (List Pattern)) : List Nat :=
  (List.range arity).filter fun i => rows.any fun row => (soleTest? i row).isSome

theorem mem_testedColumns {i : Nat} :
    i ∈ testedColumns arity rows ↔ i < arity ∧ ∃ row ∈ rows, ∃ p, tests row = [(p, i)] := by
  simp only [testedColumns, List.mem_filter, List.mem_range, List.any_eq_true, Option.isSome_iff_exists,
    soleTest?_eq_some]

/-- The answers for one constructor, and when each of them is given. -/
inductive ConstructorAnswer (c : String) (arity : Nat) (rows : List (List Pattern))
    (gapsAt : Nat → Except TypeError (List Gap)) : List Gap → Prop
  | untested {row : List Pattern} : row ∈ rows → tests row = [] → ConstructorAnswer c arity rows gapsAt []
  | covered {i : Nat} : i ∈ testedColumns arity rows → gapsAt i = .ok [] →
      ConstructorAnswer c arity rows gapsAt []
  | several {row : List Pattern} : row ∈ rows → 1 < (tests row).length →
      ConstructorAnswer c arity rows gapsAt [.anyArgs c arity]
  | columns {gs : List Gap} : (∀ row ∈ rows, ∃ p i, tests row = [(p, i)]) →
      columnGaps gapsAt (Gap.atArg c arity) (testedColumns arity rows) = .ok (some gs) →
      ConstructorAnswer c arity rows gapsAt gs

theorem constructorGaps_answer (h : constructorGaps c arity rows gapsAt = .ok gs) :
    ConstructorAnswer c arity rows gapsAt gs := by
  unfold constructorGaps at h
  split at h
  · next hany =>
      cases h
      obtain ⟨row, hrow, htests⟩ := List.any_eq_true.mp hany
      exact .untested hrow (List.isEmpty_iff.mp htests)
  · next hany =>
      obtain ⟨res, hres, h⟩ := bind_eq_ok_iff.mp h
      cases res with
      | none =>
          cases h
          obtain ⟨i, hi, hgaps⟩ := columnGaps_none hres
          exact .covered hi hgaps
      | some gaps =>
          dsimp only at h
          split at h
          · next hmany =>
              cases h
              obtain ⟨row, hrow, hlt⟩ := List.any_eq_true.mp hmany
              exact .several hrow (by simpa using hlt)
          · next hmany =>
              cases h
              refine .columns (fun row hrow => ?_) hres
              have hsome : tests row ≠ [] := fun hnil => hany (List.any_eq_true.mpr ⟨row, hrow, by simp [hnil]⟩)
              have hfew : ¬ 1 < (tests row).length := by
                intro hlt
                exact hmany (List.any_eq_true.mpr ⟨row, hrow, by simpa using hlt⟩)
              have hone : (tests row).length = 1 :=
                Nat.le_antisymm (Nat.le_of_not_lt hfew) (List.length_pos_iff.mpr hsome)
              obtain ⟨⟨p, i⟩, htests⟩ := List.length_eq_one_iff.mp hone
              exact ⟨p, i, htests⟩

end Constructor

theorem gaps_of_irrefutable {ps : List Pattern} (h : ps.any Pattern.isIrrefutable = true) :
    gaps r ps = .ok [] := by
  rw [gaps.eq_def, if_pos h]

theorem gaps_nil : gaps r [] = .ok [.anything] := by
  rw [gaps]
  rfl

/-- The check of one constructor of a sum type. -/
def constructorCheck (r : Registry) (ps : List Pattern) (d : String) : Except TypeError (List Gap) := do
  let info ← r.require d
  constructorGaps d info.arity (rowsOf d ps) fun i => gaps r (column d i ps)

/-- The check when the first pattern is for a constructor. -/
theorem gaps_con {c : String} {args : List Pattern} {ps : List Pattern}
    (h : (Pattern.con c args :: ps).any Pattern.isIrrefutable = false) :
    gaps r (.con c args :: ps) = do
      let owner ← r.require c
      requireKnown r (.con c args :: ps)
      let inner ← (owner.siblings.filter fun d => !(rowsOf d (.con c args :: ps)).isEmpty).mapM
        (constructorCheck r (.con c args :: ps))
      return (owner.siblings.filter fun d => (rowsOf d (.con c args :: ps)).isEmpty).map (.con · []) ++
        inner.flatten := by
  rw [gaps]
  simp only [h]
  simp [List.partition_eq_filter_filter]
  rfl

/-- The check when the first pattern is an integer. -/
theorem gaps_int {k : Int} {ps : List Pattern}
    (h : (Pattern.int k :: ps).any Pattern.isIrrefutable = false) :
    gaps r (.int k :: ps) = .ok [.otherIntegers (.ofList ((Pattern.int k :: ps).filterMap int?))] := by
  rw [gaps, h]
  rfl

/-- The check when the first pattern is a truth value. -/
theorem gaps_bool {b : Bool} {ps : List Pattern}
    (h : (Pattern.bool b :: ps).any Pattern.isIrrefutable = false) :
    gaps r (.bool b :: ps) =
      .ok (([true, false].filter fun b' => !(Pattern.bool b :: ps).any (isBool b')).map .bool) := by
  rw [gaps, h]
  rfl

theorem require_ok {name : String} {info : ConstructorInfo} :
    r.require name = .ok info ↔ r.constructors[name]? = some info := by
  rw [Registry.require]
  cases r.constructors[name]? <;> simp

/-! ## Known patterns -/

/-- Every pattern of the list is known. -/
def AllKnown (r : Registry) (ps : List Pattern) : Prop := ∀ p ∈ ps, p.Known r

namespace AllKnown

variable {ps : List Pattern} {d : String}

theorem row (h : AllKnown r ps) {row : List Pattern} (hrow : .con d row ∈ ps) :
    ∃ info, r.constructors[d]? = some info ∧ AllKnown r row := by
  cases h _ hrow with
  | con hinfo hargs => exact ⟨_, hinfo, hargs⟩

/-- The patterns of a column stand inside patterns of the list. -/
theorem column (h : AllKnown r ps) (d : String) (i : Nat) : AllKnown r (column d i ps) := by
  intro p hp
  obtain ⟨row, hrow, htests⟩ := mem_column.mp hp
  obtain ⟨-, -, hargs⟩ := h.row hrow
  exact hargs p (List.mem_of_getElem? (getElem?_of_sole htests))

theorem requireKnown_ok (h : AllKnown r ps) : requireKnown r ps = .ok () := by
  induction ps with
  | nil => rfl
  | cons p ps ih =>
      have hps := ih fun q hq => h q (List.mem_cons_of_mem p hq)
      cases h p List.mem_cons_self with
      | con hinfo => exact bind_eq_ok_iff.mpr ⟨_, require_ok.mpr hinfo, hps⟩
      | _ => exact hps

/-- Where there is a row for the constructor, the constructor is declared. -/
theorem constructorCheck_total (h : AllKnown r ps)
    (ih : ∀ i, ∃ gs, gaps r (Coverage.column d i ps) = .ok gs) (hd : rowsOf d ps ≠ []) :
    ∃ gs, constructorCheck r ps d = .ok gs := by
  obtain ⟨row, hrow⟩ := List.exists_mem_of_ne_nil _ hd
  obtain ⟨info, hinfo, -⟩ := h.row (mem_rowsOf.mp hrow)
  have hgaps : ∃ gs, constructorGaps d info.arity (rowsOf d ps)
      (fun i => gaps r (Coverage.column d i ps)) = .ok gs := constructorGaps_total ih
  obtain ⟨gs, hgs⟩ := hgaps
  exact ⟨gs, bind_eq_ok_iff.mpr ⟨info, require_ok.mpr hinfo, hgs⟩⟩

theorem gaps_con_total {c : String} {args : List Pattern}
    (hirr : (Pattern.con c args :: ps).any Pattern.isIrrefutable = false)
    (h : AllKnown r (.con c args :: ps))
    (ih : ∀ d i, ∃ gs, gaps r (Coverage.column d i (.con c args :: ps)) = .ok gs) :
    ∃ gs, gaps r (.con c args :: ps) = .ok gs := by
  obtain ⟨owner, howner, -⟩ := h.row List.mem_cons_self
  have hcheck : ∀ d ∈ owner.siblings.filter fun d => !(rowsOf d (.con c args :: ps)).isEmpty,
      ∃ gs, constructorCheck r (.con c args :: ps) d = .ok gs := by
    intro d hd
    have hrows : rowsOf d (.con c args :: ps) ≠ [] := by simpa using (List.mem_filter.mp hd).2
    exact h.constructorCheck_total (ih d) hrows
  obtain ⟨inner, hinner⟩ := mapM_total hcheck
  rw [gaps_con hirr]
  exact ⟨_, bind_eq_ok_iff.mpr ⟨owner, require_ok.mpr howner, bind_eq_ok_iff.mpr ⟨(),
    h.requireKnown_ok, bind_eq_ok_iff.mpr ⟨inner, hinner, rfl⟩⟩⟩⟩

end AllKnown

/-- The check gives an answer for known patterns. -/
theorem gaps_total (ps : List Pattern) (h : AllKnown r ps) : ∃ gs, gaps r ps = .ok gs := by
  induction hn : Pattern.sizeList ps using Nat.strongRecOn generalizing ps with
  | ind n ih =>
      cases hirr : ps.any Pattern.isIrrefutable with
      | true => exact ⟨[], gaps_of_irrefutable hirr⟩
      | false =>
          cases ps with
          | nil => exact ⟨[.anything], gaps_nil⟩
          | cons p ps =>
              cases p with
              | wildcard => cases hirr
              | var name => cases hirr
              | con c args =>
                  refine h.gaps_con_total hirr fun d i => ih _ ?_ _ (h.column d i) rfl
                  rw [← hn]
                  exact sizeList_column_lt d i (List.cons_ne_nil _ _)
              | _ => exact ⟨_, by rw [gaps.eq_def, hirr]; rfl⟩

theorem missingCases_total {ps : List Pattern} (h : AllKnown r ps) :
    ∃ missing, missingCases r ps = .ok missing := by
  obtain ⟨gs, hgs⟩ := gaps_total ps h
  exact ⟨gs.map Gap.render, bind_eq_ok_iff.mpr ⟨gs, hgs, rfl⟩⟩

end Coverage

end Polytype
