/-
# Polytype.Proofs.Coverage.Soundness — nothing that a match leaves out goes unreported.

For patterns that have a common type the coverage check gives a list of gaps, and every value of the type
that no pattern accepts is described by one of them (`gaps_spec`), and so by one of the texts that are returned
(`missingCases_spec`).  The check may report too much, never too little.

The induction is that of the check itself, on the size of the patterns.  A row of patterns accepts values
as soon as its tests do, the other positions being irrefutable (`acceptAll_of_tests`); so a row with a
sole test accepts what this test accepts, and the gaps of a column say what the rows with a test in that
column leave out.
-/
import Mathlib
import Polytype.Proofs.Coverage.Descriptions
import Polytype.Proofs.Registry.WellFormed

namespace Polytype

variable {F : Type} {r : Registry} {isFn : F → Ty → Ty → Prop}

/-! ## Lists of components, by position -/

theorem valueTypes_iff {vs : List (Value F)} {ts : List Ty} :
    ValueTypes r isFn vs ts ↔ List.Forall₂ (ValueType r isFn) vs ts := by
  constructor
  · intro h
    induction vs generalizing ts with
    | nil =>
        cases h
        exact .nil
    | cons v vs ih =>
        cases h with
        | cons hv hvs => exact .cons hv (ih hvs)
  · intro h
    induction h with
    | nil => exact .nil
    | cons hv _ ih => exact .cons hv ih

theorem Pattern.acceptAll_iff {ps : List Pattern} {vs : List (Value F)} :
    AcceptAll ps vs ↔ List.Forall₂ Accepts ps vs := by
  constructor
  · intro h
    induction ps generalizing vs with
    | nil =>
        cases h
        exact .nil
    | cons p ps ih =>
        cases h with
        | cons hp hps => exact .cons hp (ih hps)
  · intro h
    induction h with
    | nil => exact .nil
    | cons hp _ ih => exact .cons hp ih

theorem PatternTypes.forall₂ {ps : List Pattern} {ts : List Ty} {bs : List (String × Ty)}
    (h : PatternTypes r ps ts bs) : List.Forall₂ (fun p t => ∃ bs, PatternType r p t bs) ps ts := by
  induction ps generalizing ts bs with
  | nil =>
      cases h
      exact .nil
  | cons p ps ih =>
      cases h with
      | cons hp hps => exact .cons ⟨_, hp⟩ (ih hps)

/-- A typed pattern is made of declared constructors. -/
theorem PatternType.known {p : Pattern} {t : Ty} {bs : List (String × Ty)} (h : PatternType r p t bs) :
    p.Known r := by
  have hmem : ∀ {ps : List Pattern} {ts : List Ty} {bs : List (String × Ty)},
      PatternTypes r ps ts bs → ∀ q ∈ ps, ∃ u cs, PatternType r q u cs := by
    intro ps ts bs hps q hq
    obtain ⟨i, hi, rfl⟩ := List.getElem_of_mem hq
    have hi' : i < ts.length := hps.forall₂.length_eq ▸ hi
    exact ⟨_, (List.forall₂_iff_get.mp hps.forall₂).2 i hi hi'⟩
  induction p generalizing t bs with
  | wildcard => exact .wildcard
  | var name => exact .var name
  | int n => exact .int n
  | bool b => exact .bool b
  | con name args ih =>
      cases h with
      | con hinfo _ hargs =>
          refine .con hinfo fun p hp => ?_
          obtain ⟨u, cs, hu⟩ := hmem hargs p hp
          exact ih p hp hu
  | tuple elems ih =>
      cases h with
      | tuple helems =>
          refine .tuple fun p hp => ?_
          obtain ⟨u, cs, hu⟩ := hmem helems p hp
          exact ih p hp hu
  | record fields ih =>
      cases h with
      | record _ hfields =>
          refine .record fun f hf => ?_
          obtain ⟨u, cs, hu⟩ := hmem hfields f.2 (List.mem_map_of_mem hf)
          exact ih f hf hu

/-! ## Rows and their tests -/

namespace Coverage

open Pattern (Accepts AcceptAll)

theorem accepts_of_isIrrefutable {p : Pattern} (h : p.isIrrefutable = true) (v : Value F) :
    p.Accepts v := by
  cases p with
  | wildcard => exact .wildcard v
  | var name => exact .var name v
  | _ => cases h

/-- A row accepts values as soon as its tests do. -/
theorem acceptAll_of_tests {row : List Pattern} {vs : List (Value F)} (hlen : row.length = vs.length)
    (h : ∀ p i v, (p, i) ∈ tests row → vs[i]? = some v → p.Accepts v) : AcceptAll row vs := by
  refine Pattern.acceptAll_iff.mpr (List.forall₂_iff_get.mpr ⟨hlen, fun i hi hi' => ?_⟩)
  cases hirr : (row.get ⟨i, hi⟩).isIrrefutable with
  | true => exact accepts_of_isIrrefutable hirr _
  | false =>
      refine h _ i _ (mem_tests.mpr ⟨?_, hirr⟩) ?_
      · exact List.getElem?_eq_getElem hi
      · exact List.getElem?_eq_getElem hi'

/-! ## Gaps of a constructor -/

theorem anyArgs_describes {c : String} {arity : Nat} {vs : List (Value F)} (hlen : vs.length = arity) :
    (Gap.anyArgs c arity).Describes (.con c vs) := by
  refine .con (describeAll_iff.mpr (List.forall₂_iff_get.mpr ⟨by simp [hlen], ?_⟩))
  intro i hi hi'
  simpa using Gap.Describes.anything _

theorem atArg_describes {c : String} {arity i : Nat} {vs : List (Value F)} {v : Value F} {g : Gap}
    (hlen : vs.length = arity) (hv : vs[i]? = some v) (hg : g.Describes v) :
    (Gap.atArg c arity i g).Describes (.con c vs) := by
  refine .con (describeAll_iff.mpr (List.forall₂_iff_get.mpr ⟨by simp [hlen], ?_⟩))
  intro j hj hj'
  rw [List.get_eq_getElem, List.get_eq_getElem, List.getElem_set]
  split
  · next hij =>
      subst hij
      rw [List.getElem?_eq_getElem hj', Option.some.injEq] at hv
      exact hv ▸ hg
  · simpa using Gap.Describes.anything _

section Constructor

variable {c : String} {arity : Nat} {rows : List (List Pattern)}
  {gapsAt : Nat → Except TypeError (List Gap)}

/-- When every row has one test, some column is tested by itself. -/
theorem exists_tested_column (hrows : ∀ row ∈ rows, row.length = arity) (hne : rows ≠ [])
    (hone : ∀ row ∈ rows, ∃ p i, tests row = [(p, i)]) : ∃ i, i ∈ testedColumns arity rows := by
  obtain ⟨row, hrow⟩ := List.exists_mem_of_ne_nil rows hne
  obtain ⟨p, i, htests⟩ := hone row hrow
  obtain ⟨hi, -⟩ := List.getElem?_eq_some_iff.mp (getElem?_of_sole htests)
  rw [hrows row hrow] at hi
  exact ⟨i, mem_testedColumns.mpr ⟨hi, row, hrow, p, htests⟩⟩

/-- Values that no row accepts are described by the gaps of the constructor, if what no column accepts
is described by the gaps of the column. -/
theorem constructorGaps_describes {vs : List (Value F)} {gs : List Gap} (hlen : vs.length = arity)
    (hrows : ∀ row ∈ rows, row.length = arity) (hne : rows ≠ [])
    (hno : ∀ row ∈ rows, ¬ AcceptAll row vs)
    (hcol : ∀ i here v, gapsAt i = .ok here → vs[i]? = some v →
      (∀ row ∈ rows, ∀ p, tests row = [(p, i)] → ¬ p.Accepts v) → ∃ g ∈ here, g.Describes v)
    (h : constructorGaps c arity rows gapsAt = .ok gs) : ∃ g ∈ gs, g.Describes (.con c vs) := by
  have hsole : ∀ i v, vs[i]? = some v → ∀ row ∈ rows, ∀ p, tests row = [(p, i)] → ¬ p.Accepts v := by
    intro i v hv row hrow p htests haccepts
    refine hno row hrow (acceptAll_of_tests ((hrows row hrow).trans hlen.symm) fun q j w hq hw => ?_)
    rw [htests, List.mem_singleton] at hq
    obtain ⟨rfl, rfl⟩ := Prod.mk.inj hq
    rw [hv, Option.some.injEq] at hw
    exact hw ▸ haccepts
  cases constructorGaps_answer h with
  | @untested row hrow htests =>
      -- a row without tests would accept the values
      refine absurd (acceptAll_of_tests ((hrows row hrow).trans hlen.symm) ?_) (hno row hrow)
      simp [htests]
  | @covered i hi hgaps =>
      -- a column without gaps would accept the value in its place
      have hi := (mem_testedColumns.mp hi).1
      rw [← hlen] at hi
      have hv := List.getElem?_eq_getElem hi
      obtain ⟨g, hg, -⟩ := hcol i [] _ hgaps hv (hsole i _ hv)
      exact absurd hg List.not_mem_nil
  | several => exact ⟨_, List.mem_singleton_self _, anyArgs_describes hlen⟩
  | columns hone hcolumns =>
      -- every row has one test; the value in the column of any of them is described
      obtain ⟨i, hicol⟩ := exists_tested_column hrows hne hone
      obtain ⟨here, hhere, -, hsub⟩ := (columnGaps_some hcolumns).1 i hicol
      have hi := (mem_testedColumns.mp hicol).1
      rw [← hlen] at hi
      have hv := List.getElem?_eq_getElem hi
      obtain ⟨g, hg, hdesc⟩ := hcol i here _ hhere hv (hsole i _ hv)
      exact ⟨_, hsub g hg, atArg_describes hlen hv hdesc⟩

end Constructor

/-! ## Gaps of a list of patterns -/

/-- Patterns that all have the type. -/
def AllTyped (r : Registry) (ps : List Pattern) (t : Ty) : Prop :=
  ∀ p ∈ ps, ∃ bs, PatternType r p t bs

/-- The patterns of a typed list for one constructor: it is known, and each row is typed at its
fields. -/
theorem AllTyped.row {ps : List Pattern} {typeName : String} {ts : List Ty}
    (h : AllTyped r ps (.sum typeName ts)) {d : String} {row : List Pattern} (hrow : .con d row ∈ ps) :
    ∃ info, r.constructors[d]? = some info ∧ info.typeName = typeName ∧
      List.Forall₂ (fun p t => ∃ bs, PatternType r p t bs) row (info.fieldsAt ts) := by
  obtain ⟨bs, hp⟩ := h _ hrow
  cases hp with
  | con hinfo _ hargs => exact ⟨_, hinfo, rfl, hargs.forall₂⟩

theorem AllTyped.column {ps : List Pattern} {typeName : String} {ts : List Ty}
    (h : AllTyped r ps (.sum typeName ts)) {d : String} {info : ConstructorInfo}
    (hinfo : r.constructors[d]? = some info) {i : Nat} {t : Ty} (ht : (info.fieldsAt ts)[i]? = some t) :
    AllTyped r (column d i ps) t := by
  intro p hp
  obtain ⟨row, hrow, htests⟩ := mem_column.mp hp
  obtain ⟨info', hinfo', -, hargs⟩ := h.row hrow
  obtain rfl : info = info' := Option.some.inj (hinfo.symm.trans hinfo')
  obtain ⟨hi, rfl⟩ := List.getElem?_eq_some_iff.mp (getElem?_of_sole htests)
  obtain ⟨hi', rfl⟩ := List.getElem?_eq_some_iff.mp ht
  exact (List.forall₂_iff_get.mp hargs).2 i hi hi'

theorem AllTyped.allKnown {ps : List Pattern} {t : Ty} (h : AllTyped r ps t) : AllKnown r ps :=
  fun p hp => (h p hp).elim fun _ ht => ht.known

/-- Every value of the type that no pattern accepts is described by some gap. -/
def ReportsAll (r : Registry) (ps : List Pattern) (t : Ty) (gs : List Gap) : Prop :=
  ∀ ⦃F : Type⦄ ⦃isFn : F → Ty → Ty → Prop⦄ ⦃v : Value F⦄, ValueType r isFn v t →
    (∀ p ∈ ps, ¬ p.Accepts v) → ∃ g ∈ gs, g.Describes v

theorem length_fieldsAt (info : ConstructorInfo) (ts : List Ty) :
    (info.fieldsAt ts).length = info.arity := by
  simp [ConstructorInfo.fieldsAt, ConstructorInfo.arity]

/-- The rows for a constructor have as many arguments as it has fields. -/
theorem AllTyped.length_row {ps : List Pattern} {typeName : String} {ts : List Ty}
    (h : AllTyped r ps (.sum typeName ts)) {d : String} {info : ConstructorInfo}
    (hinfo : r.constructors[d]? = some info) : ∀ row ∈ rowsOf d ps, row.length = info.arity := by
  intro row hrow
  obtain ⟨info', hinfo', -, hargs⟩ := h.row (mem_rowsOf.mp hrow)
  obtain rfl : info = info' := Option.some.inj (hinfo.symm.trans hinfo')
  exact hargs.length_eq.trans (length_fieldsAt info ts)

/-- The check answers for every typed column, and reports all that the column leaves out. -/
def ColumnsReported (r : Registry) (ps : List Pattern) : Prop :=
  ∀ (d : String) (i : Nat) (u : Ty), AllTyped r (column d i ps) u →
    ∃ gs, gaps r (column d i ps) = .ok gs ∧ ReportsAll r (column d i ps) u gs

section Sum

variable {ps : List Pattern} {typeName : String} {ts : List Ty} {d : String}

theorem constructorCheck_describes (ht : AllTyped r ps (.sum typeName ts)) (ih : ColumnsReported r ps)
    (hd : rowsOf d ps ≠ []) {info : ConstructorInfo} (hinfo : r.constructors[d]? = some info)
    {vs : List (Value F)} (hvs : ValueTypes r isFn vs (info.fieldsAt ts))
    (hno : ∀ p ∈ ps, ¬ p.Accepts (.con d vs)) {gs : List Gap} (h : constructorCheck r ps d = .ok gs) :
    ∃ g ∈ gs, g.Describes (.con d vs) := by
  obtain ⟨info', hinfo', h⟩ := bind_eq_ok_iff.mp h
  obtain rfl : info = info' := Option.some.inj (hinfo.symm.trans (require_ok.mp hinfo'))
  have htyped := valueTypes_iff.mp hvs
  refine constructorGaps_describes (htyped.length_eq.trans (length_fieldsAt info ts))
    (ht.length_row hinfo) hd ?_ ?_ h
  · exact fun row hrow haccept => hno _ (mem_rowsOf.mp hrow) (.con haccept)
  · intro i here w hhere hw hcolumn
    obtain ⟨hi, rfl⟩ := List.getElem?_eq_some_iff.mp hw
    have hi' : i < (info.fieldsAt ts).length := htyped.length_eq ▸ hi
    obtain ⟨gs', hgs', hreports⟩ := ih d i _ (ht.column hinfo (List.getElem?_eq_getElem hi'))
    obtain rfl : here = gs' := Except.ok.inj (hhere.symm.trans hgs')
    refine hreports ((List.forall₂_iff_get.mp htyped).2 i hi hi') fun p hp => ?_
    obtain ⟨row, hrow, htests⟩ := mem_column.mp hp
    exact hcolumn row (mem_rowsOf.mpr hrow) p htests

theorem exists_con {v : Value F} (h : ValueType r isFn v (.sum typeName ts)) :
    ∃ name info vs, v = .con name vs ∧ r.constructors[name]? = some info ∧
      info.typeName = typeName ∧ ValueTypes r isFn vs (info.fieldsAt ts) := by
  cases h with
  | con hinfo _ hvs => exact ⟨_, _, _, rfl, hinfo, rfl, hvs⟩

/-- The check at a sum type, from the check at the columns. -/
theorem gaps_con_spec (hr : r.WellFormed) {c : String} {args : List Pattern} {t : Ty}
    (hirr : (Pattern.con c args :: ps).any Pattern.isIrrefutable = false)
    (ht : AllTyped r (.con c args :: ps) t) (ih : ColumnsReported r (.con c args :: ps)) :
    ∃ gs, gaps r (.con c args :: ps) = .ok gs ∧ ReportsAll r (.con c args :: ps) t gs := by
  obtain ⟨bs, hp⟩ := ht _ List.mem_cons_self
  cases hp with
  | @con _ owner _ ts _ howner _ _ =>
      have hrows : ∀ d ∈ owner.siblings.filter fun d => !(rowsOf d (.con c args :: ps)).isEmpty,
          rowsOf d (.con c args :: ps) ≠ [] := fun d hd => by simpa using (List.mem_filter.mp hd).2
      obtain ⟨gs, hgs⟩ := gaps_total _ ht.allKnown
      refine ⟨gs, hgs, fun F isFn v hv hno => ?_⟩
      simp only [gaps_con hirr, bind_eq_ok_iff, pure_eq_ok_iff] at hgs
      obtain ⟨owner', howner', -, -, inner, hinner, rfl⟩ := hgs
      obtain rfl : owner = owner' := Option.some.inj (howner.symm.trans (require_ok.mp howner'))
      obtain ⟨name, info, vs, rfl, hinfo, htypeName, hvs⟩ := exists_con hv
      have hsibling := hr.sibling_mem c name owner info howner hinfo htypeName.symm
      by_cases hname : (rowsOf name (.con c args :: ps)).isEmpty = true
      · -- no pattern is for the constructor of the value
        refine ⟨.con name [], List.mem_append_left _ (List.mem_map.mpr ⟨name, ?_, rfl⟩), .bare _ _⟩
        exact List.mem_filter.mpr ⟨hsibling, hname⟩
      · have hpresent : name ∈
            owner.siblings.filter fun d => !(rowsOf d (.con c args :: ps)).isEmpty :=
          List.mem_filter.mpr ⟨hsibling, by simpa using hname⟩
        obtain ⟨gs, hgs, hcheck⟩ := exists_mem_of_mapM hinner name hpresent
        obtain ⟨g, hg, hdesc⟩ :=
          constructorCheck_describes ht ih (hrows name hpresent) hinfo hvs hno hcheck
        exact ⟨g, List.mem_append_right _ (List.mem_flatten.mpr ⟨gs, hgs, hg⟩), hdesc⟩

end Sum

theorem gaps_int_spec {k : Int} {ps : List Pattern} {t : Ty}
    (hirr : (Pattern.int k :: ps).any Pattern.isIrrefutable = false) (ht : AllTyped r (.int k :: ps) t) :
    ∃ gs, gaps r (.int k :: ps) = .ok gs ∧ ReportsAll r (.int k :: ps) t gs := by
  refine ⟨[.otherIntegers (.ofList ((Pattern.int k :: ps).filterMap int?))], by rw [gaps, hirr]; rfl, ?_⟩
  intro F isFn v hv hno
  obtain ⟨bs, hp⟩ := ht _ List.mem_cons_self
  cases hp
  cases hv with
  | int m =>
      refine ⟨_, List.mem_cons_self, .otherIntegers fun hm => ?_⟩
      rw [Std.ExtTreeSet.mem_ofList, List.contains_iff_mem, List.mem_filterMap] at hm
      obtain ⟨p, hp, hint⟩ := hm
      cases p with
      | int m' =>
          cases hint
          exact hno _ hp (.int m)
      | _ => cases hint

theorem gaps_bool_spec {b : Bool} {ps : List Pattern} {t : Ty}
    (hirr : (Pattern.bool b :: ps).any Pattern.isIrrefutable = false)
    (ht : AllTyped r (.bool b :: ps) t) :
    ∃ gs, gaps r (.bool b :: ps) = .ok gs ∧ ReportsAll r (.bool b :: ps) t gs := by
  refine ⟨([true, false].filter fun b' => !(Pattern.bool b :: ps).any (isBool b')).map .bool,
    by rw [gaps, hirr]; rfl, ?_⟩
  intro F isFn v hv hno
  obtain ⟨bs, hp⟩ := ht _ List.mem_cons_self
  cases hp
  cases hv with
  | bool b' =>
      refine ⟨.bool b', List.mem_map.mpr ⟨b', List.mem_filter.mpr ⟨by cases b' <;> simp, ?_⟩, rfl⟩,
        .bool b'⟩
      rw [Bool.not_eq_true', ← Bool.not_eq_true, any_isBool]
      exact fun hp => hno _ hp (.bool b')

theorem reportsAll_anything (ps : List Pattern) (t : Ty) : ReportsAll r ps t [.anything] :=
  fun _ _ v _ _ => ⟨.anything, List.mem_cons_self, .anything v⟩

/-- The check gives an answer for patterns of one type, and reports all that they leave out. -/
theorem gaps_spec (hr : r.WellFormed) (ps : List Pattern) {t : Ty} (ht : AllTyped r ps t) :
    ∃ gs, gaps r ps = .ok gs ∧ ReportsAll r ps t gs := by
  induction hn : Pattern.sizeList ps using Nat.strongRecOn generalizing ps t with
  | ind n ih =>
      cases hirr : ps.any Pattern.isIrrefutable with
      | true =>
          refine ⟨[], gaps_of_irrefutable hirr, fun F isFn v _ hno => ?_⟩
          obtain ⟨p, hp, hpirr⟩ := List.any_eq_true.mp hirr
          exact absurd (accepts_of_isIrrefutable hpirr v) (hno p hp)
      | false =>
          cases ps with
          | nil => exact ⟨[.anything], gaps_nil, reportsAll_anything [] t⟩
          | cons p ps =>
              cases p with
              | wildcard => cases hirr
              | var name => cases hirr
              | int k => exact gaps_int_spec hirr ht
              | bool b => exact gaps_bool_spec hirr ht
              | con c args =>
                  refine gaps_con_spec hr hirr ht fun d i u hu => ih _ ?_ _ hu rfl
                  rw [← hn]
                  exact sizeList_column_lt d i (List.cons_ne_nil _ _)
              | tuple elems => exact ⟨[.anything], by rw [gaps.eq_def, hirr]; rfl, reportsAll_anything _ t⟩
              | record fields => exact ⟨[.anything], by rw [gaps.eq_def, hirr]; rfl, reportsAll_anything _ t⟩

/-- Every value of the type that no pattern accepts is described by some text. -/
def TextsReportAll (r : Registry) (ps : List Pattern) (t : Ty) (missing : List String) : Prop :=
  ∀ ⦃F : Type⦄ ⦃isFn : F → Ty → Ty → Prop⦄ ⦃v : Value F⦄, ValueType r isFn v t →
    (∀ p ∈ ps, ¬ p.Accepts v) → ∃ text ∈ missing, TextDescribes {p | p ∈ ps} text v

/-- Where there is nothing to report, some pattern accepts. -/
theorem TextsReportAll.exists_accepts {ps : List Pattern} {t : Ty} (h : TextsReportAll r ps t []) {v : Value F}
    (hv : ValueType r isFn v t) : ∃ p ∈ ps, p.Accepts v := by
  by_contra hno
  obtain ⟨text, htext, -⟩ := h hv fun p hp haccepts => hno ⟨p, hp, haccepts⟩
  exact absurd htext List.not_mem_nil

theorem missingCases_spec (hr : r.WellFormed) {ps : List Pattern} {t : Ty} (ht : AllTyped r ps t) :
    ∃ missing, missingCases r ps = .ok missing ∧ TextsReportAll r ps t missing := by
  obtain ⟨gs, hgs, hreports⟩ := gaps_spec hr ps ht
  refine ⟨gs.map Gap.render, bind_eq_ok_iff.mpr ⟨gs, hgs, rfl⟩, fun F isFn v hv hno => ?_⟩
  obtain ⟨g, hg, hdesc⟩ := hreports hv hno
  exact ⟨g.render, List.mem_map_of_mem hg, textDescribes_of_gaps ps gs hgs g hg v hdesc⟩

end Coverage

/-! ## Missing cases -/

/-- **No runtime failure is missed.** For patterns of one type the texts that are returned describe every
value of the type that none of the patterns accepts; when there are no texts, some pattern accepts the value. -/
theorem missingCases_complete {decls : List Decl} (hr : Registry.build decls = .ok r)
    {ps : List Pattern} {t : Ty} (ht : ∀ p ∈ ps, ∃ bs, PatternType r p t bs) :
    ∃ missing, Coverage.missingCases r ps = .ok missing ∧
      (∀ {F : Type} (isFn : F → Ty → Ty → Prop) (v : Value F), ValueType r isFn v t →
        (∀ p ∈ ps, ¬ p.Accepts v) → ∃ text ∈ missing, Coverage.TextDescribes {p | p ∈ ps} text v) ∧
      (missing = [] → ∀ {F : Type} (isFn : F → Ty → Ty → Prop) (v : Value F), ValueType r isFn v t →
        ∃ p ∈ ps, p.Accepts v) := by
  obtain ⟨missing, hmissing, hreports⟩ := Coverage.missingCases_spec (Registry.build_wellFormed hr) ht
  refine ⟨missing, hmissing, fun isFn v hv hno => hreports hv hno, ?_⟩
  rintro rfl F isFn v hv
  exact hreports.exists_accepts hv

/-- An option has a value or has none. -/
def optionDecls : List Decl := [.sum "Option" ["a"] [⟨"None", []⟩, ⟨"Some", [.var "a"]⟩]]

/-- What is registered about the constructor with a value. -/
def someInfo : ConstructorInfo := ⟨"Some", "Option", ["a"], [.var 0], ["None", "Some"]⟩

theorem build_optionDecls :
    ∃ r, Registry.build optionDecls = .ok r ∧ r.constructors["Some"]? = some someInfo := by
  have hsome : (Registry.build optionDecls).toOption.bind (fun r => r.constructors["Some"]?) =
      some someInfo := rfl
  obtain ⟨r, hopt, hinfo⟩ := Option.bind_eq_some_iff.mp hsome
  exact ⟨r, eq_ok_of_toOption hopt, hinfo⟩

theorem missingCases_complete_option :
    ∃ r, Registry.build optionDecls = .ok r ∧
      Coverage.missingCases r [.con "Some" [.int 1]] = .ok ["None", "Some (<other integers>)"] ∧
      ∃ text ∈ ["None", "Some (<other integers>)"],
        Coverage.TextDescribes {p | p ∈ [.con "Some" [.int 1]]} text (.con "Some" [.int 2] : Value Empty) := by
  obtain ⟨r, hr, hinfo⟩ := build_optionDecls
  have hps : ∀ p ∈ [Pattern.con "Some" [.int 1]], ∃ bs, PatternType r p (.sum "Option" [.int]) bs := by
    refine List.forall_mem_singleton.mpr ⟨[], ?_⟩
    exact .con hinfo rfl (.cons (.int 1) .nil)
  have heval : (Registry.build optionDecls).toOption.map (fun r =>
      (Coverage.missingCases r [.con "Some" [.int 1]]).toOption) =
        some (some ["None", "Some (<other integers>)"]) := by
    cbv
  rw [hr] at heval
  have hmissing := eq_ok_of_toOption (Option.some.inj heval)
  obtain ⟨missing, hmissing', hreports, -⟩ := missingCases_complete hr hps
  obtain rfl := Except.ok.inj (hmissing.symm.trans hmissing')
  refine ⟨r, hr, hmissing, hreports (fun _ _ _ => False) _ ?_ fun p hp haccepts => ?_⟩
  · exact .con hinfo rfl (.cons (.int 2) .nil)
  · rw [List.mem_singleton.mp hp] at haccepts
    cases haccepts with
    | con hargs =>
        cases hargs with
        | cons hint _ => cases hint

end Polytype
