/-
# Polytype.Proofs.Coverage.ArmSets — only the set of arms counts, and more arms cover more.

The check dispatches on the first arm, groups the others by constructor, skips what follows a covered column, and
lets one row that tests several fields speak for all gaps of its constructor.  All the same, for arms of one type
its answer does not depend on how often and in which order they stand (`gaps_eq_of_subset`), and an arm that is
added never opens a gap where there was none (`gaps_nil_of_subset`).

Both rest on the type.  It fixes the kind of all arms that can fail, so it does not matter which of them comes
first: there is one equation for the check at each kind of type (`gaps_of_int`, `gaps_of_bool`, `gaps_of_sum`,
`gaps_of_product`).  At a sum type the question passes to the columns, which are sets of patterns of one type again.
-/
import Mathlib
import Polytype.Proofs.Coverage.Exactness

namespace Polytype

/-- The constructors of one type have the same siblings. -/
theorem Registry.siblings_eq {decls : List Decl} {r : Registry} (hbuild : build decls = .ok r)
    {name name' : String} {c c' : ConstructorInfo} (hc : r.constructors[name]? = some c)
    (hc' : r.constructors[name']? = some c') (htype : c.typeName = c'.typeName) : c.siblings = c'.siblings := by
  obtain ⟨info, hinfo, -, hsiblings, -⟩ := (coherent_of_build hbuild hc).owner
  obtain ⟨info', hinfo', -, hsiblings', -⟩ := (coherent_of_build hbuild hc').owner
  rw [htype, hinfo', Option.some.injEq] at hinfo
  rw [hsiblings, hsiblings', hinfo]

namespace Coverage

variable {r : Registry} {ps qs : List Pattern}

/-! ## Arms, rows and columns as sets -/

theorem any_of_subset {α : Type} {xs ys : List α} (h : xs ⊆ ys) {f : α → Bool} (hx : xs.any f = true) :
    ys.any f = true := by
  obtain ⟨x, hmem, hf⟩ := List.any_eq_true.mp hx
  exact List.any_eq_true.mpr ⟨x, h hmem, hf⟩

theorem any_eq_of_subset {α : Type} {xs ys : List α} (h : xs ⊆ ys) (h' : ys ⊆ xs) (f : α → Bool) :
    xs.any f = ys.any f :=
  Bool.eq_iff_iff.mpr ⟨any_of_subset h, any_of_subset h'⟩

theorem rowsOf_subset (h : ps ⊆ qs) (d : String) : rowsOf d ps ⊆ rowsOf d qs :=
  fun _ hrow => mem_rowsOf.mpr (h (mem_rowsOf.mp hrow))

theorem column_subset (h : ps ⊆ qs) (d : String) (i : Nat) : column d i ps ⊆ column d i qs := by
  intro p hp
  obtain ⟨row, hrow, htests⟩ := mem_column.mp hp
  exact mem_column.mpr ⟨row, h hrow, htests⟩

theorem isEmpty_rowsOf_eq (h : ps ⊆ qs) (h' : qs ⊆ ps) (d : String) :
    (rowsOf d ps).isEmpty = (rowsOf d qs).isEmpty := by
  rw [Bool.eq_iff_iff, List.isEmpty_iff, List.isEmpty_iff]
  constructor
  · exact fun hnil => List.subset_nil.mp (hnil ▸ rowsOf_subset h' d)
  · exact fun hnil => List.subset_nil.mp (hnil ▸ rowsOf_subset h d)

/-! ## The check at each kind of type -/

section Forms

variable (hne : ps ≠ []) (hirr : ps.any Pattern.isIrrefutable = false)
include hne hirr

theorem gaps_of_int (ht : AllTyped r ps .int) :
    gaps r ps = .ok [.otherIntegers (.ofList (ps.filterMap int?))] := by
  obtain ⟨p, ps, rfl⟩ := List.exists_cons_of_ne_nil hne
  obtain ⟨bs, hp⟩ := ht p List.mem_cons_self
  cases hp with
  | wildcard => cases hirr
  | var => cases hirr
  | int k => exact gaps_int hirr

theorem gaps_of_bool (ht : AllTyped r ps .bool) :
    gaps r ps = .ok (([true, false].filter fun b => !ps.any (isBool b)).map .bool) := by
  obtain ⟨p, ps, rfl⟩ := List.exists_cons_of_ne_nil hne
  obtain ⟨bs, hp⟩ := ht p List.mem_cons_self
  cases hp with
  | wildcard => cases hirr
  | var => cases hirr
  | bool b => exact gaps_bool hirr

theorem gaps_of_bool_eq_nil_iff (ht : AllTyped r ps .bool) : gaps r ps = .ok [] ↔ ∀ b, .bool b ∈ ps := by
  rw [gaps_of_bool hne hirr ht]
  simp [-List.any_eq_true, -List.any_eq_false, any_isBool, Bool.forall_bool]

/-- Tuples and records are covered by irrefutable arms only. -/
theorem gaps_of_product {t : Ty} (hform : (∃ ts, t = .tuple ts) ∨ ∃ fields, t = .record fields)
    (ht : AllTyped r ps t) : gaps r ps = .ok [.anything] := by
  obtain ⟨p, ps, rfl⟩ := List.exists_cons_of_ne_nil hne
  obtain ⟨bs, hp⟩ := ht p List.mem_cons_self
  rcases hform with ⟨ts, rfl⟩ | ⟨fields, rfl⟩
  · cases hp with
    | wildcard => cases hirr
    | var => cases hirr
    | tuple => rw [gaps.eq_def, hirr]; rfl
  · cases hp with
    | wildcard => cases hirr
    | var => cases hirr
    | record => rw [gaps.eq_def, hirr]; rfl

/-- Any constructor of a sum type lists those that have to be covered. -/
theorem gaps_of_sum {decls : List Decl} (hr : Registry.build decls = .ok r) {d : String} {info : ConstructorInfo}
    (hinfo : r.constructors[d]? = some info) {ts : List Ty} (ht : AllTyped r ps (.sum info.typeName ts)) :
    gaps r ps = do
      let inner ← (info.siblings.filter fun d => !(rowsOf d ps).isEmpty).mapM (constructorCheck r ps)
      return (info.siblings.filter fun d => (rowsOf d ps).isEmpty).map (.con · []) ++ inner.flatten := by
  have hknown := ht.allKnown.requireKnown_ok
  obtain ⟨p, ps, rfl⟩ := List.exists_cons_of_ne_nil hne
  obtain ⟨bs, hp⟩ := ht p List.mem_cons_self
  generalize hsum : Ty.sum info.typeName ts = t at hp
  cases hp with
  | wildcard => cases hirr
  | var => cases hirr
  | @con c owner args ts' _ howner _ _ =>
      obtain ⟨htype, -⟩ := Ty.sum.inj hsum
      rw [gaps_con hirr, require_ok.mpr howner, hknown, Registry.siblings_eq hr hinfo howner htype]
      rfl
  | _ => cases hsum

/-- Arms of a sum type leave nothing out exactly when every constructor of the type has rows and is covered by
them. -/
theorem gaps_of_sum_eq_nil_iff {decls : List Decl} (hr : Registry.build decls = .ok r) {c : String}
    {info : ConstructorInfo} (hinfo : r.constructors[c]? = some info) {ts : List Ty}
    (ht : AllTyped r ps (.sum info.typeName ts)) :
    gaps r ps = .ok [] ↔ ∀ d ∈ info.siblings, rowsOf d ps ≠ [] ∧ constructorCheck r ps d = .ok [] := by
  rw [gaps_of_sum hne hirr hr hinfo ht]
  simp only [bind_eq_ok_iff, pure_eq_ok_iff, List.append_eq_nil_iff, List.map_eq_nil_iff, List.filter_eq_nil_iff,
    List.isEmpty_iff]
  constructor
  · rintro ⟨inner, hinner, hpresent, hflat⟩ d hd
    have hmem : d ∈ info.siblings.filter fun d => !(rowsOf d ps).isEmpty :=
      List.mem_filter.mpr ⟨hd, by simpa using hpresent d hd⟩
    obtain ⟨gs, hgs, hcheck⟩ := exists_mem_of_mapM hinner d hmem
    rw [List.flatten_eq_nil_iff.mp hflat gs hgs] at hcheck
    exact ⟨hpresent d hd, hcheck⟩
  · intro h
    refine ⟨(info.siblings.filter fun d => !(rowsOf d ps).isEmpty).map fun _ => [], ?_, fun d hd => (h d hd).1, ?_⟩
    · rw [mapM_eq_ok_iff, List.forall₂_map_right_iff, List.forall₂_same]
      exact fun d hd => (h d (List.mem_filter.mp hd).1).2
    · simp

end Forms

/-! ## The same arms -/

theorem columnGaps_congr {gapsAt gapsAt' : Nat → Except TypeError (List Gap)} {describe : Nat → Gap → Gap}
    {cols : List Nat} (h : ∀ i ∈ cols, gapsAt i = gapsAt' i) :
    columnGaps gapsAt describe cols = columnGaps gapsAt' describe cols := by
  induction cols with
  | nil => rfl
  | cons i cols ih =>
      rw [columnGaps, columnGaps, h i List.mem_cons_self, ih fun j hj => h j (List.mem_cons_of_mem i hj)]

/-- The gaps of a constructor depend on its rows as a set, and on the gaps of its columns. -/
theorem constructorGaps_of_subset {c : String} {arity : Nat} {rows rows' : List (List Pattern)}
    {gapsAt gapsAt' : Nat → Except TypeError (List Gap)} (h : rows ⊆ rows') (h' : rows' ⊆ rows)
    (hgaps : ∀ i < arity, gapsAt i = gapsAt' i) :
    constructorGaps c arity rows gapsAt = constructorGaps c arity rows' gapsAt' := by
  unfold constructorGaps
  simp only [any_eq_of_subset h h']
  rw [columnGaps_congr fun i hi => hgaps i (List.mem_range.mp (List.mem_filter.mp hi).1)]

/-- A field of a constructor at which a column may be typed. -/
theorem exists_field {info : ConstructorInfo} {i : Nat} (hi : i < info.arity) (ts : List Ty) :
    ∃ u, (info.fieldsAt ts)[i]? = some u :=
  ⟨_, List.getElem?_eq_getElem ((length_fieldsAt info ts).symm ▸ hi)⟩

theorem constructorCheck_of_subset {typeName : String} {ts : List Ty} (hps : AllTyped r ps (.sum typeName ts))
    (hqs : AllTyped r qs (.sum typeName ts)) (h : ps ⊆ qs) (h' : qs ⊆ ps) {d : String}
    (ih : ∀ i u, AllTyped r (column d i ps) u → AllTyped r (column d i qs) u →
      gaps r (column d i ps) = gaps r (column d i qs)) :
    constructorCheck r ps d = constructorCheck r qs d := by
  unfold constructorCheck
  cases hinfo : r.require d with
  | error e => rfl
  | ok info =>
      refine constructorGaps_of_subset (rowsOf_subset h d) (rowsOf_subset h' d) fun i hi => ?_
      obtain ⟨u, hu⟩ := exists_field hi ts
      have hinfo := require_ok.mp hinfo
      exact ih i u (hps.column hinfo hu) (hqs.column hinfo hu)

theorem listed_eq (h : ps ⊆ qs) (h' : qs ⊆ ps) :
    Std.ExtTreeSet.ofList (ps.filterMap int?) = Std.ExtTreeSet.ofList (qs.filterMap int?) := by
  refine Std.ExtTreeSet.ext_mem fun n => ?_
  simp only [Std.ExtTreeSet.mem_ofList, List.contains_iff_mem]
  exact ⟨fun hn => List.filterMap_subset int? h hn, fun hn => List.filterMap_subset int? h' hn⟩

/-- Lists of arms of one type that have the same members have the same gaps, in the same order. -/
theorem gaps_eq_of_subset {decls : List Decl} (hr : Registry.build decls = .ok r) (ps qs : List Pattern) {t : Ty}
    (hps : AllTyped r ps t) (hqs : AllTyped r qs t) (h : ps ⊆ qs) (h' : qs ⊆ ps) : gaps r ps = gaps r qs := by
  -- by the size of one list: the columns of both are sets of patterns again, and those of this list are smaller
  induction hn : Pattern.sizeList ps using Nat.strongRecOn generalizing ps qs t with
  | ind n ih =>
      have hany := any_eq_of_subset h h'
      cases hirr : ps.any Pattern.isIrrefutable with
      | true => rw [gaps_of_irrefutable hirr, gaps_of_irrefutable (hany _ ▸ hirr)]
      | false =>
          have hirr' : qs.any Pattern.isIrrefutable = false := hany _ ▸ hirr
          by_cases hne : ps = []
          · subst hne
            rw [List.subset_nil.mp h']
          have hne' : qs ≠ [] := fun hnil => hne (List.subset_nil.mp (hnil ▸ h))
          -- any arm shows what kind of type it is
          obtain ⟨p, hmem⟩ := List.exists_mem_of_ne_nil ps hne
          obtain ⟨bs, hp⟩ := hps p hmem
          cases hp with
          | wildcard => exact absurd rfl (List.any_eq_false.mp hirr _ hmem)
          | var => exact absurd rfl (List.any_eq_false.mp hirr _ hmem)
          | int k =>
              rw [gaps_of_int hne hirr hps, gaps_of_int hne' hirr' hqs, listed_eq h h']
          | bool b =>
              rw [gaps_of_bool hne hirr hps, gaps_of_bool hne' hirr' hqs]
              simp only [hany]
          | tuple =>
              rw [gaps_of_product hne hirr (.inl ⟨_, rfl⟩) hps,
                gaps_of_product hne' hirr' (.inl ⟨_, rfl⟩) hqs]
          | record =>
              rw [gaps_of_product hne hirr (.inr ⟨_, rfl⟩) hps,
                gaps_of_product hne' hirr' (.inr ⟨_, rfl⟩) hqs]
          | con hinfo =>
              rw [gaps_of_sum hne hirr hr hinfo hps, gaps_of_sum hne' hirr' hr hinfo hqs]
              simp only [isEmpty_rowsOf_eq h h']
              rw [mapM_congr fun d _ => constructorCheck_of_subset hps hqs h h' fun i u hu hu' => ?_]
              refine ih _ ?_ _ _ hu hu' (column_subset h d i) (column_subset h' d i) rfl
              rw [← hn]
              exact sizeList_column_lt d i hne

/-! ## More arms -/

/-- One column without gaps is enough, wherever it stands. -/
theorem columnGaps_eq_none {gapsAt : Nat → Except TypeError (List Gap)} {describe : Nat → Gap → Gap}
    {cols : List Nat} (htotal : ∀ i, ∃ here, gapsAt i = .ok here) {i : Nat} (hi : i ∈ cols)
    (hgaps : gapsAt i = .ok []) : columnGaps gapsAt describe cols = .ok none := by
  induction cols with
  | nil => exact absurd hi List.not_mem_nil
  | cons j cols ih =>
      obtain ⟨here, hhere⟩ := htotal j
      rw [columnGaps, hhere]
      cases here with
      | nil => rfl
      | cons g gs =>
          have hi : i ∈ cols := by
            rcases List.mem_cons.mp hi with rfl | hi
            · rw [hgaps] at hhere
              cases hhere
            · exact hi
          exact bind_eq_ok_iff.mpr ⟨_, rfl, bind_eq_ok_iff.mpr ⟨none, ih hi, rfl⟩⟩

section Constructor

variable {c : String} {arity : Nat} {rows : List (List Pattern)} {gapsAt : Nat → Except TypeError (List Gap)}

/-- A constructor is covered exactly when one of its rows tests nothing, or tests one field only, in a column
without gaps. -/
theorem constructorGaps_eq_nil_iff (hrows : ∀ row ∈ rows, row.length = arity) (hne : rows ≠ [])
    (htotal : ∀ i, ∃ here, gapsAt i = .ok here) :
    constructorGaps c arity rows gapsAt = .ok [] ↔
      (∃ row ∈ rows, tests row = []) ∨ ∃ row ∈ rows, ∃ p i, tests row = [(p, i)] ∧ gapsAt i = .ok [] := by
  constructor
  · intro h
    cases constructorGaps_answer h with
    | @untested row hrow htests => exact Or.inl ⟨row, hrow, htests⟩
    | @covered i hi hgaps =>
        obtain ⟨-, row, hrow, p, htests⟩ := mem_testedColumns.mp hi
        exact Or.inr ⟨row, hrow, p, i, htests, hgaps⟩
    | columns hone hcolumns =>
        -- some column is tested by itself, and its gaps would be reported
        obtain ⟨i, hicol⟩ := exists_tested_column hrows hne hone
        obtain ⟨here, -, hopen, hsub⟩ := (columnGaps_some hcolumns).1 i hicol
        obtain ⟨g, hg⟩ := List.exists_mem_of_ne_nil here hopen
        exact absurd (hsub g hg) List.not_mem_nil
  · intro h
    unfold constructorGaps
    split
    · rfl
    · next hany =>
        rcases h with ⟨row, hrow, htests⟩ | ⟨row, hrow, p, i, htests, hgaps⟩
        · exact absurd (List.any_eq_true.mpr ⟨row, hrow, by rw [htests]; rfl⟩) hany
        · obtain ⟨hi, -⟩ := List.getElem?_eq_some_iff.mp (getElem?_of_sole htests)
          rw [hrows row hrow] at hi
          have hcol := mem_testedColumns.mpr ⟨hi, row, hrow, p, htests⟩
          exact bind_eq_ok_iff.mpr ⟨none, columnGaps_eq_none htotal hcol hgaps, rfl⟩

end Constructor

section Sum

variable {typeName : String} {ts : List Ty} {d : String}

/-- A constructor that is covered by some rows is covered by more of them. -/
theorem constructorCheck_nil_of_subset (hps : AllTyped r ps (.sum typeName ts))
    (hqs : AllTyped r qs (.sum typeName ts)) (hsub : ps ⊆ qs) (hd : rowsOf d ps ≠ [])
    (ih : ∀ i u, AllTyped r (column d i ps) u → AllTyped r (column d i qs) u →
      gaps r (column d i ps) = .ok [] → gaps r (column d i qs) = .ok [])
    (h : constructorCheck r ps d = .ok []) : constructorCheck r qs d = .ok [] := by
  obtain ⟨info, hrequire, h⟩ := bind_eq_ok_iff.mp h
  have hinfo := require_ok.mp hrequire
  have htotal : ∀ {ps : List Pattern}, AllTyped r ps (.sum typeName ts) →
      ∀ i, ∃ here, gaps r (column d i ps) = .ok here :=
    fun ht i => gaps_total _ (ht.allKnown.column d i)
  have hrows := rowsOf_subset hsub d
  have hd' : rowsOf d qs ≠ [] := fun hnil => hd (List.subset_nil.mp (hnil ▸ hrows))
  refine bind_eq_ok_iff.mpr ⟨info, hrequire, ?_⟩
  rw [constructorGaps_eq_nil_iff (hps.length_row hinfo) hd (htotal hps)] at h
  rw [constructorGaps_eq_nil_iff (hqs.length_row hinfo) hd' (htotal hqs)]
  rcases h with ⟨row, hrow, htests⟩ | ⟨row, hrow, p, i, htests, hgaps⟩
  · exact Or.inl ⟨row, hrows hrow, htests⟩
  · obtain ⟨hi, -⟩ := List.getElem?_eq_some_iff.mp (getElem?_of_sole htests)
    rw [hps.length_row hinfo row hrow] at hi
    obtain ⟨u, hu⟩ := exists_field hi ts
    exact Or.inr ⟨row, hrows hrow, p, i, htests, ih i u (hps.column hinfo hu) (hqs.column hinfo hu) hgaps⟩

end Sum

/-- Arms that leave nothing out leave nothing out together with others of the type. -/
theorem gaps_nil_of_subset {decls : List Decl} (hr : Registry.build decls = .ok r) (ps qs : List Pattern) {t : Ty}
    (hps : AllTyped r ps t) (hqs : AllTyped r qs t) (hsub : ps ⊆ qs) (h : gaps r ps = .ok []) :
    gaps r qs = .ok [] := by
  induction hn : Pattern.sizeList ps using Nat.strongRecOn generalizing ps qs t with
  | ind n ih =>
      cases hirr' : qs.any Pattern.isIrrefutable with
      | true => exact gaps_of_irrefutable hirr'
      | false =>
          have hirr : ps.any Pattern.isIrrefutable = false :=
            Bool.eq_false_iff.mpr fun hps => Bool.eq_false_iff.mp hirr' (any_of_subset hsub hps)
          by_cases hne : ps = []
          · subst hne
            rw [gaps_nil] at h
            cases h
          have hne' : qs ≠ [] := fun hnil => hne (List.subset_nil.mp (hnil ▸ hsub))
          obtain ⟨p, hmem⟩ := List.exists_mem_of_ne_nil ps hne
          obtain ⟨bs, hp⟩ := hps p hmem
          cases hp with
          | wildcard => exact absurd rfl (List.any_eq_false.mp hirr _ hmem)
          | var => exact absurd rfl (List.any_eq_false.mp hirr _ hmem)
          | int k => rw [gaps_of_int hne hirr hps] at h; cases h
          | tuple => rw [gaps_of_product hne hirr (.inl ⟨_, rfl⟩) hps] at h; cases h
          | record => rw [gaps_of_product hne hirr (.inr ⟨_, rfl⟩) hps] at h; cases h
          | bool b =>
              rw [gaps_of_bool_eq_nil_iff hne hirr hps] at h
              rw [gaps_of_bool_eq_nil_iff hne' hirr' hqs]
              exact fun b => hsub (h b)
          | con hinfo =>
              rw [gaps_of_sum_eq_nil_iff hne hirr hr hinfo hps] at h
              rw [gaps_of_sum_eq_nil_iff hne' hirr' hr hinfo hqs]
              intro d hd
              obtain ⟨hrows, hcheck⟩ := h d hd
              refine ⟨fun hnil => hrows (List.subset_nil.mp (hnil ▸ rowsOf_subset hsub d)), ?_⟩
              refine constructorCheck_nil_of_subset hps hqs hsub hrows (fun i u hu hu' hgaps => ?_) hcheck
              refine ih _ ?_ _ _ hu hu' (column_subset hsub d i) hgaps rfl
              rw [← hn]
              exact sizeList_column_lt d i hne

theorem missingCases_eq_nil_iff : missingCases r ps = .ok [] ↔ gaps r ps = .ok [] := by
  simp only [missingCases, bind_eq_ok_iff, pure_eq_ok_iff, List.map_eq_nil_iff, exists_eq_right]

end Coverage

/-! ## Missing cases -/

/-- **Only the set of arms counts.** Arms of one type that are the same up to order and repetition have the same
missing cases, in the same order; and if a match has no missing case, then none appears when arms are added. -/
theorem missingCases_armSet {decls : List Decl} {r : Registry} (hr : Registry.build decls = .ok r)
    {ps qs : List Pattern} {t : Ty} (hps : ∀ p ∈ ps, ∃ bs, PatternType r p t bs)
    (hqs : ∀ p ∈ qs, ∃ bs, PatternType r p t bs) :
    ((∀ p, p ∈ ps ↔ p ∈ qs) →
      ∃ missing, Coverage.missingCases r ps = .ok missing ∧ Coverage.missingCases r qs = .ok missing) ∧
    (ps ⊆ qs → Coverage.missingCases r ps = .ok [] → Coverage.missingCases r qs = .ok []) := by
  constructor
  · intro hsame
    obtain ⟨gs, hgs⟩ := Coverage.gaps_total ps (Coverage.AllTyped.allKnown hps)
    have hgs' := Coverage.gaps_eq_of_subset hr ps qs hps hqs (fun p => (hsame p).mp) fun p => (hsame p).mpr
    exact ⟨gs.map Gap.render, bind_eq_ok_iff.mpr ⟨gs, hgs, rfl⟩, bind_eq_ok_iff.mpr ⟨gs, hgs' ▸ hgs, rfl⟩⟩
  · intro hsub hcovered
    rw [Coverage.missingCases_eq_nil_iff] at hcovered ⊢
    exact Coverage.gaps_nil_of_subset hr ps qs hps hqs hsub hcovered

/-- The arm for an option without a value. -/
def noneArm : Pattern := .con "None" []

/-- The arm for an option with any value. -/
def someArm : Pattern := .con "Some" [.wildcard]

/-- The arm for an option with one value, which is an option itself. -/
def someTrueArm : Pattern := .con "Some" [.con "Some" [.bool true]]

theorem missingCases_armSet_option :
    ∃ r, Registry.build optionDecls = .ok r ∧
      (∃ missing, missing ≠ [] ∧ Coverage.missingCases r [someTrueArm, noneArm] = .ok missing ∧
        Coverage.missingCases r [noneArm, someTrueArm, noneArm] = .ok missing) ∧
      Coverage.missingCases r [someArm, noneArm] = .ok [] ∧
      Coverage.missingCases r [someTrueArm, noneArm, someArm] = .ok [] := by
  obtain ⟨r, hr, hnone, hsome⟩ := build_optionDecls_none
  have htyped : ∀ p ∈ [someTrueArm, noneArm, someArm],
      ∃ bs, PatternType r p (.sum "Option" [.sum "Option" [.bool]]) bs := by
    have hinner : PatternType r (.con "Some" [.bool true]) (.sum "Option" [.bool]) [] :=
      .con hsome rfl (.cons (.bool true) .nil)
    refine List.forall_mem_cons.mpr ⟨⟨[], .con hsome rfl (.cons hinner .nil)⟩, List.forall_mem_cons.mpr ⟨?_, ?_⟩⟩
    · exact ⟨[], .con hnone rfl .nil⟩
    · exact List.forall_mem_singleton.mpr ⟨[], .con hsome rfl (.cons (.wildcard _) .nil)⟩
  have heval : (Registry.build optionDecls).toOption.map (fun r =>
      ((Coverage.missingCases r [someTrueArm, noneArm]).toOption,
        (Coverage.missingCases r [someArm, noneArm]).toOption)) =
      some (some ["Some None", "Some (Some false)"], some []) := by
    cbv
  rw [hr] at heval
  obtain ⟨hopen, hcovered⟩ := Prod.mk.inj (Option.some.inj heval)
  have hopen := eq_ok_of_toOption hopen
  have hcovered := eq_ok_of_toOption hcovered
  refine ⟨r, hr, ?_, hcovered, ?_⟩
  · have hfew : [someTrueArm, noneArm] ⊆ [someTrueArm, noneArm, someArm] := by simp
    have hmany : [noneArm, someTrueArm, noneArm] ⊆ [someTrueArm, noneArm, someArm] := by simp
    obtain ⟨missing, hfewCases, hmanyCases⟩ := (missingCases_armSet hr (fun p hp => htyped p (hfew hp))
      fun p hp => htyped p (hmany hp)).1 fun p => by simp [or_comm]
    refine ⟨missing, fun hnil => ?_, hfewCases, hmanyCases⟩
    rw [hopen, hnil] at hfewCases
    cases hfewCases
  · have hsub : [someArm, noneArm] ⊆ [someTrueArm, noneArm, someArm] := by simp
    exact (missingCases_armSet hr (fun p hp => htyped p (hsub hp)) htyped).2 hsub hcovered

end Polytype
