/-
# Polytype.Proofs.Coverage.Exactness — where the coverage check is exact.

The check may report a gap that is none: tuples and records count as covered only by an irrefutable arm, and
rows that test several fields of a constructor at once count for none of them.  Where patterns do neither
(`Pattern.Narrow`), and there are values to be left out (`Ty.Populated`), every reported gap is real: it
describes a value that no pattern accepts (`gaps_reportsOnly`), and so does every text
(`missingCases_reportsOnly`).  Together with `missingCases_spec` the check is then exact.

The value is put together along the recursion of the check.  A gap in one column of a constructor comes with
a value for that column.  The rows that test other columns have to fail as well; but the constructor is
reported only if all its columns have gaps, and any gap of a column gives a value that defeats the rows
that test it.  As a row tests one column only, these values can be chosen column by column.
-/
import Mathlib
import Polytype.Proofs.Coverage.Soundness
import Polytype.Proofs.Registry.Contents

namespace Polytype

/-! ## Siblings -/

namespace Registry

variable {decls : List Decl} {r : Registry}

/-- Every declared constructor has an entry. -/
theorem exists_entry (hbuild : build decls = .ok r) {d : Decl} (hd : d ∈ decls) {c : ConstructorDecl}
    (hc : c ∈ d.constructors) :
    ∃ info, r.constructors[c.name]? = some info ∧ EntryOf r.toTypeTable d c info := by
  have hholds := build_holds hbuild
  rw [build] at hbuild
  simp only [bind_eq_ok_iff] at hbuild
  obtain ⟨-, -, table, -, h⟩ := hbuild
  have hscoped := (exists_foldlM_addConstructors_iff rfl).mp ⟨r, h⟩ d hd c hc
  rw [← foldlM_addConstructors_table h] at hscoped
  obtain ⟨r', hr'⟩ := exists_addConstructor_iff.mpr hscoped
  obtain ⟨info, hentry, -⟩ := addDeclared_ok_iff (p := (d, c)).mp hr'
  exact ⟨info, (hholds.constructors_iff _ _).mpr ⟨d, hd, c, hc, rfl, hentry⟩, hentry⟩

/-- The siblings of a constructor are constructors of the same type. -/
theorem exists_sibling (hbuild : build decls = .ok r) {name sibling : String} {c : ConstructorInfo}
    (hc : r.constructors[name]? = some c) (hsibling : sibling ∈ c.siblings) :
    ∃ info, r.constructors[sibling]? = some info ∧ info.typeName = c.typeName ∧
      info.typeParams = c.typeParams := by
  obtain ⟨d, hd, cd, hcd, rfl, hentry⟩ := ((build_holds hbuild).constructors_iff name c).mp hc
  rw [hentry.info_eq] at hsibling ⊢
  obtain ⟨cd', hcd', rfl⟩ := List.mem_map.mp hsibling
  obtain ⟨info, hinfo, hentry'⟩ := exists_entry hbuild hd hcd'
  refine ⟨info, hinfo, ?_, ?_⟩ <;> rw [hentry'.info_eq]

end Registry

/-! ## Narrow patterns and populated types -/

/-- The pattern has no tuples and no records in it, and each constructor in it has at most one argument that
can fail. -/
inductive Pattern.Narrow : Pattern → Prop
  | wildcard : Narrow .wildcard
  | var (name : String) : Narrow (.var name)
  | int (n : Int) : Narrow (.int n)
  | bool (b : Bool) : Narrow (.bool b)
  | con {name : String} {args : List Pattern} : (args.countP fun p => !p.isIrrefutable) ≤ 1 →
      (∀ p ∈ args, Narrow p) → Narrow (.con name args)

/-- Values of the first type may hold values of the second one, in the fields of their constructors. -/
inductive Ty.Reaches (r : Registry) : Ty → Ty → Prop
  | refl (t : Ty) : Reaches r t t
  | field {name : String} {c : ConstructorInfo} {ts : List Ty} {u t : Ty} :
      r.constructors[name]? = some c → ts.length = c.typeParams.length → u ∈ c.fieldsAt ts →
      Reaches r u t → Reaches r (.sum c.typeName ts) t

variable {F : Type} {r : Registry} {isFn : F → Ty → Ty → Prop}

/-- The type has a value, and so has the type of every field of a constructor that may stand in its values. -/
def Ty.Populated (r : Registry) (isFn : F → Ty → Ty → Prop) (t : Ty) : Prop :=
  ∀ u : Ty, t.Reaches r u → ∃ v : Value F, ValueType r isFn v u

namespace Ty.Populated

theorem exists_value {t : Ty} (h : t.Populated r isFn) : ∃ v : Value F, ValueType r isFn v t := h t (.refl t)

theorem field {name : String} {c : ConstructorInfo} {ts : List Ty}
    (h : (Ty.sum c.typeName ts).Populated r isFn) (hc : r.constructors[name]? = some c)
    (hlen : ts.length = c.typeParams.length) {u : Ty} (hu : u ∈ c.fieldsAt ts) : u.Populated r isFn :=
  fun t ht => h t (.field hc hlen hu ht)

end Ty.Populated

namespace Coverage

open Pattern (Accepts AcceptAll)

theorem length_tests (row : List Pattern) : (tests row).length = row.countP fun p => !p.isIrrefutable := by
  have hrow := List.countP_map (p := fun p : Pattern => !p.isIrrefutable) (f := Prod.fst) (l := row.zipIdx)
  rw [List.zipIdx_map_fst] at hrow
  rw [tests, ← List.countP_eq_length_filter, hrow]
  rfl

/-- Every pattern of the list is narrow. -/
def AllNarrow (ps : List Pattern) : Prop := ∀ p ∈ ps, p.Narrow

theorem AllNarrow.row {ps : List Pattern} (h : AllNarrow ps) {d : String} {row : List Pattern}
    (hrow : .con d row ∈ ps) : (tests row).length ≤ 1 ∧ AllNarrow row := by
  cases h _ hrow with
  | con hcount hargs => exact ⟨by rw [length_tests]; exact hcount, hargs⟩

theorem AllNarrow.column {ps : List Pattern} (h : AllNarrow ps) (d : String) (i : Nat) :
    AllNarrow (column d i ps) := by
  intro p hp
  obtain ⟨row, hrow, htests⟩ := mem_column.mp hp
  exact (h.row hrow).2 p (List.mem_of_getElem? (getElem?_of_sole htests))

/-! ## Values that rows do not accept -/

theorem not_acceptAll_of_test {row : List Pattern} {vs : List (Value F)} {p : Pattern} {i : Nat} {v : Value F}
    (hp : (p, i) ∈ tests row) (hv : vs[i]? = some v) (hno : ¬ p.Accepts v) : ¬ AcceptAll row vs := by
  intro h
  obtain ⟨hi, rfl⟩ := List.getElem?_eq_some_iff.mp (mem_tests.mp hp).1
  obtain ⟨hi', rfl⟩ := List.getElem?_eq_some_iff.mp hv
  exact hno ((List.forall₂_iff_get.mp (Pattern.acceptAll_iff.mp h)).2 i hi hi')

theorem not_accepts_con {ps : List Pattern} (hirr : ps.any Pattern.isIrrefutable = false) {d : String}
    {vs : List (Value F)} (h : ∀ row ∈ rowsOf d ps, ¬ AcceptAll row vs) :
    ∀ p ∈ ps, ¬ p.Accepts (.con d vs) := by
  intro p hp haccepts
  have hfail := List.any_eq_false.mp hirr p hp
  cases haccepts with
  | wildcard => exact hfail rfl
  | var => exact hfail rfl
  | con hargs => exact h _ (mem_rowsOf.mpr hp) hargs

/-- Values for a list of types may be chosen one by one. -/
theorem exists_valueTypes {us : List Ty} {P : Nat → Value F → Prop}
    (h : ∀ i u, us[i]? = some u → ∃ v, ValueType r isFn v u ∧ P i v) :
    ∃ vs, ValueTypes r isFn vs us ∧ ∀ i v, vs[i]? = some v → P i v := by
  induction us generalizing P with
  | nil => exact ⟨[], .nil, by simp⟩
  | cons u us ih =>
      obtain ⟨v, hv, hhere⟩ := h 0 u rfl
      obtain ⟨vs, hvs, hlater⟩ := ih (P := fun i => P (i + 1)) fun i u hu => h (i + 1) u hu
      refine ⟨v :: vs, .cons hv hvs, fun i w hw => ?_⟩
      cases i with
      | zero =>
          cases hw
          exact hhere
      | succ i => exact hlater i w hw

/-! ## Gaps of a constructor -/

/-- The value fails the tests of the rows that test position `i` only. -/
def Defeats (rows : List (List Pattern)) (i : Nat) (v : Value F) : Prop :=
  ∀ row ∈ rows, ∀ p, tests row = [(p, i)] → ¬ p.Accepts v

section Constructor

variable {c : String} {arity : Nat} {rows : List (List Pattern)}
  {gapsAt : Nat → Except TypeError (List Gap)} {gs : List Gap}

/-- When no row tests two fields, a constructor is covered, or every row for it tests something and all tested
columns have gaps. -/
theorem constructorGaps_narrow (hnarrow : ∀ row ∈ rows, (tests row).length ≤ 1)
    (h : constructorGaps c arity rows gapsAt = .ok gs) :
    gs = [] ∨ (∀ row ∈ rows, ∃ p i, tests row = [(p, i)]) ∧
      columnGaps gapsAt (Gap.atArg c arity) (testedColumns arity rows) = .ok (some gs) := by
  cases constructorGaps_answer h with
  | untested => exact Or.inl rfl
  | covered => exact Or.inl rfl
  | several hrow hlt => exact absurd (hnarrow _ hrow) (Nat.not_le_of_lt hlt)
  | columns hone hcolumns => exact Or.inr ⟨hone, hcolumns⟩

/-- The gaps of a constructor are real, if those of its columns are. -/
theorem constructorGaps_reportsOnly {us : List Ty} (hlen : us.length = arity)
    (hrows : ∀ row ∈ rows, row.length = arity) (hnarrow : ∀ row ∈ rows, (tests row).length ≤ 1)
    (hvalue : ∀ u ∈ us, ∃ v : Value F, ValueType r isFn v u)
    (hcol : ∀ i u here, us[i]? = some u → gapsAt i = .ok here → ∀ g ∈ here,
      ∃ v : Value F, ValueType r isFn v u ∧ Defeats rows i v ∧ g.Describes v)
    (h : constructorGaps c arity rows gapsAt = .ok gs) :
    ∀ g ∈ gs, ∃ vs : List (Value F), ValueTypes r isFn vs us ∧ (∀ row ∈ rows, ¬ AcceptAll row vs) ∧
      g.Describes (.con c vs) := by
  intro g hg
  rcases constructorGaps_narrow hnarrow h with rfl | ⟨hsole, hcolumns⟩
  · exact absurd hg List.not_mem_nil
  obtain ⟨hopen, honly⟩ := columnGaps_some hcolumns
  obtain ⟨i, hi, here, hhere, g', hg', rfl⟩ := honly g hg
  have hi : i < us.length := hlen ▸ (mem_testedColumns.mp hi).1
  have hchoice : ∀ j u, us[j]? = some u →
      ∃ v : Value F, ValueType r isFn v u ∧ Defeats rows j v ∧ (j = i → g'.Describes v) := by
    intro j u hu
    by_cases hji : j = i
    · -- the column of the gap
      subst hji
      obtain ⟨v, hv, hdefeats, hdesc⟩ := hcol j u here hu hhere g' hg'
      exact ⟨v, hv, hdefeats, fun _ => hdesc⟩
    by_cases htested : ∃ row ∈ rows, ∃ p, tests row = [(p, j)]
    · -- another column that is tested has a gap of its own
      obtain ⟨row, hrow, p, htests⟩ := htested
      have hj : j < arity := hlen ▸ (List.getElem?_eq_some_iff.mp hu).1
      obtain ⟨there, hthere, hne, -⟩ := hopen j (mem_testedColumns.mpr ⟨hj, row, hrow, p, htests⟩)
      obtain ⟨g₁, hg₁⟩ := List.exists_mem_of_ne_nil there hne
      obtain ⟨v, hv, hdefeats, -⟩ := hcol j u there hu hthere g₁ hg₁
      exact ⟨v, hv, hdefeats, fun heq => absurd heq hji⟩
    · -- a column that is not tested
      obtain ⟨v, hv⟩ := hvalue u (List.mem_of_getElem? hu)
      exact ⟨v, hv, fun row hrow p htests => absurd ⟨row, hrow, p, htests⟩ htested,
        fun heq => absurd heq hji⟩
  obtain ⟨vs, hvs, hchosen⟩ := exists_valueTypes hchoice
  have hlength : vs.length = us.length := (valueTypes_iff.mp hvs).length_eq
  refine ⟨vs, hvs, fun row hrow => ?_, ?_⟩
  · obtain ⟨p, j, htests⟩ := hsole row hrow
    have hmem : (p, j) ∈ tests row := htests ▸ List.mem_singleton_self _
    obtain ⟨hj, -⟩ := List.getElem?_eq_some_iff.mp (mem_tests.mp hmem).1
    rw [hrows row hrow, ← hlen, ← hlength] at hj
    have hv := List.getElem?_eq_getElem hj
    exact not_acceptAll_of_test hmem hv ((hchosen j _ hv).1 row hrow p htests)
  · rw [← hlength] at hi
    have hv := List.getElem?_eq_getElem hi
    exact atArg_describes (hlength.trans hlen) hv ((hchosen i _ hv).2 rfl)

end Constructor

/-! ## Gaps of a list of patterns -/

/-- Every gap describes some value of the type that no pattern accepts. -/
def ReportsOnly (r : Registry) (isFn : F → Ty → Ty → Prop) (ps : List Pattern) (t : Ty) (gs : List Gap) :
    Prop :=
  ∀ g ∈ gs, ∃ v : Value F, ValueType r isFn v t ∧ (∀ p ∈ ps, ¬ p.Accepts v) ∧ g.Describes v

theorem reportsOnly_int {k : Int} {ps : List Pattern} {t : Ty}
    (hirr : (Pattern.int k :: ps).any Pattern.isIrrefutable = false) (ht : AllTyped r (.int k :: ps) t)
    {gs : List Gap} (h : gaps r (.int k :: ps) = .ok gs) : ReportsOnly r isFn (.int k :: ps) t gs := by
  obtain rfl := Except.ok.inj ((gaps_int hirr).symm.trans h)
  obtain ⟨bs, hp⟩ := ht _ List.mem_cons_self
  cases hp
  -- finitely many integers are listed
  obtain ⟨n, hn⟩ := Infinite.exists_notMem_finset ((Pattern.int k :: ps).filterMap int?).toFinset
  rw [List.mem_toFinset] at hn
  intro g hg
  obtain rfl := List.mem_singleton.mp hg
  refine ⟨.int n, .int n, fun p hp haccepts => ?_, .otherIntegers ?_⟩
  · have hfail := List.any_eq_false.mp hirr p hp
    cases haccepts with
    | wildcard => exact hfail rfl
    | var => exact hfail rfl
    | int => exact hn (List.mem_filterMap.mpr ⟨_, hp, rfl⟩)
  · rwa [Std.ExtTreeSet.mem_ofList, List.contains_iff_mem]

theorem reportsOnly_bool {b : Bool} {ps : List Pattern} {t : Ty}
    (hirr : (Pattern.bool b :: ps).any Pattern.isIrrefutable = false) (ht : AllTyped r (.bool b :: ps) t)
    {gs : List Gap} (h : gaps r (.bool b :: ps) = .ok gs) : ReportsOnly r isFn (.bool b :: ps) t gs := by
  obtain rfl := Except.ok.inj ((gaps_bool hirr).symm.trans h)
  obtain ⟨bs, hp⟩ := ht _ List.mem_cons_self
  cases hp
  intro g hg
  obtain ⟨b', hb', rfl⟩ := List.mem_map.mp hg
  have hunlisted := (List.mem_filter.mp hb').2
  rw [Bool.not_eq_true', ← Bool.not_eq_true, any_isBool] at hunlisted
  refine ⟨.bool b', .bool b', fun p hp haccepts => ?_, .bool b'⟩
  have hfail := List.any_eq_false.mp hirr p hp
  cases haccepts with
  | wildcard => exact hfail rfl
  | var => exact hfail rfl
  | bool => exact hunlisted hp

section Sum

variable {decls : List Decl} {ps : List Pattern}

/-- The gaps of every typed column are real. -/
def ColumnsReal (r : Registry) (isFn : F → Ty → Ty → Prop) (ps : List Pattern) : Prop :=
  ∀ (d : String) (i : Nat) (u : Ty), AllTyped r (column d i ps) u → u.Populated r isFn →
    ∀ gs, gaps r (column d i ps) = .ok gs → ReportsOnly r isFn (column d i ps) u gs

/-- The gaps of a constructor that has rows are real. -/
theorem constructorCheck_reportsOnly {info : ConstructorInfo} {ts : List Ty} {d : String}
    (hirr : ps.any Pattern.isIrrefutable = false) (ht : AllTyped r ps (.sum info.typeName ts))
    (hnarrow : AllNarrow ps) (hpop : (Ty.sum info.typeName ts).Populated r isFn)
    (ih : ColumnsReal r isFn ps) (hinfo : r.constructors[d]? = some info)
    (hlen : ts.length = info.typeParams.length) {gs : List Gap} (h : constructorCheck r ps d = .ok gs) :
    ReportsOnly r isFn ps (.sum info.typeName ts) gs := by
  obtain ⟨info', hinfo', h⟩ := bind_eq_ok_iff.mp h
  obtain rfl : info = info' := Option.some.inj (hinfo.symm.trans (require_ok.mp hinfo'))
  have hfield : ∀ u ∈ info.fieldsAt ts, u.Populated r isFn := fun u hu => hpop.field hinfo hlen hu
  intro g hg
  have hcol : ∀ i u here, (info.fieldsAt ts)[i]? = some u → gaps r (column d i ps) = .ok here →
      ∀ g ∈ here, ∃ v : Value F, ValueType r isFn v u ∧ Defeats (rowsOf d ps) i v ∧ g.Describes v := by
    intro i u here hu hhere g hg
    obtain ⟨v, hv, hno, hdesc⟩ :=
      ih d i u (ht.column hinfo hu) (hfield u (List.mem_of_getElem? hu)) here hhere g hg
    refine ⟨v, hv, fun row hrow p htests => hno p (mem_column.mpr ⟨row, ?_, htests⟩), hdesc⟩
    exact mem_rowsOf.mp hrow
  obtain ⟨vs, hvs, hno, hdesc⟩ := constructorGaps_reportsOnly (length_fieldsAt info ts) (ht.length_row hinfo)
    (fun row hrow => (hnarrow.row (mem_rowsOf.mp hrow)).1) (fun u hu => (hfield u hu).exists_value)
    hcol h g hg
  exact ⟨.con d vs, .con hinfo hlen hvs, not_accepts_con hirr hno, hdesc⟩

/-- The gap for a constructor that has no rows is real. -/
theorem reportsOnly_absent {info : ConstructorInfo} {ts : List Ty} {d : String}
    (hirr : ps.any Pattern.isIrrefutable = false) (hpop : (Ty.sum info.typeName ts).Populated r isFn)
    (hinfo : r.constructors[d]? = some info) (hlen : ts.length = info.typeParams.length)
    (habsent : rowsOf d ps = []) : ReportsOnly r isFn ps (.sum info.typeName ts) [.con d []] := by
  intro g hg
  obtain rfl := List.mem_singleton.mp hg
  have hchoice : ∀ (i : Nat) (u : Ty), (info.fieldsAt ts)[i]? = some u →
      ∃ v : Value F, ValueType r isFn v u ∧ True := by
    intro i u hu
    obtain ⟨v, hv⟩ := (hpop.field hinfo hlen (List.mem_of_getElem? hu)).exists_value
    exact ⟨v, hv, trivial⟩
  obtain ⟨vs, hvs, -⟩ := exists_valueTypes (P := fun _ _ => True) hchoice
  refine ⟨.con d vs, .con hinfo hlen hvs, not_accepts_con hirr ?_, .bare d vs⟩
  simp [habsent]

/-- The check at a sum type, from the check at the columns. -/
theorem reportsOnly_con (hr : Registry.build decls = .ok r) {c : String} {args : List Pattern} {t : Ty}
    (hirr : (Pattern.con c args :: ps).any Pattern.isIrrefutable = false)
    (ht : AllTyped r (.con c args :: ps) t) (hnarrow : AllNarrow (.con c args :: ps))
    (hpop : t.Populated r isFn) (ih : ColumnsReal r isFn (.con c args :: ps)) {gs : List Gap}
    (h : gaps r (.con c args :: ps) = .ok gs) : ReportsOnly r isFn (.con c args :: ps) t gs := by
  obtain ⟨bs, hp⟩ := ht _ List.mem_cons_self
  cases hp with
  | @con _ owner _ ts _ howner hlen _ =>
      simp only [gaps_con hirr, bind_eq_ok_iff, pure_eq_ok_iff] at h
      obtain ⟨owner', howner', -, -, inner, hinner, rfl⟩ := h
      obtain rfl : owner = owner' := Option.some.inj (howner.symm.trans (require_ok.mp howner'))
      intro g hg
      rcases List.mem_append.mp hg with hg | hg
      · obtain ⟨d, hd, rfl⟩ := List.mem_map.mp hg
        obtain ⟨hsibling, habsent⟩ := List.mem_filter.mp hd
        obtain ⟨info, hinfo, htypeName, hparams⟩ := Registry.exists_sibling hr howner hsibling
        rw [← htypeName] at hpop ⊢
        rw [← hparams] at hlen
        exact reportsOnly_absent hirr hpop hinfo hlen (List.isEmpty_iff.mp habsent) _
          (List.mem_singleton_self _)
      · obtain ⟨gs, hgs, hg⟩ := List.mem_flatten.mp hg
        obtain ⟨d, hd, hcheck⟩ := exists_of_mem_mapM hinner gs hgs
        obtain ⟨info, hinfo, htypeName, hparams⟩ :=
          Registry.exists_sibling hr howner (List.mem_filter.mp hd).1
        rw [← htypeName] at hpop ht ⊢
        rw [← hparams] at hlen
        exact constructorCheck_reportsOnly hirr ht hnarrow hpop ih hinfo hlen hcheck g hg

end Sum

/-- For narrow patterns at a populated type every gap is real. -/
theorem gaps_reportsOnly {decls : List Decl} (hr : Registry.build decls = .ok r) (ps : List Pattern) {t : Ty}
    (ht : AllTyped r ps t) (hnarrow : AllNarrow ps) (hpop : t.Populated r isFn) {gs : List Gap}
    (h : gaps r ps = .ok gs) : ReportsOnly r isFn ps t gs := by
  induction hn : Pattern.sizeList ps using Nat.strongRecOn generalizing ps t gs with
  | ind n ih =>
      cases hirr : ps.any Pattern.isIrrefutable with
      | true =>
          rw [gaps_of_irrefutable hirr] at h
          cases h
          exact fun g hg => absurd hg List.not_mem_nil
      | false =>
          cases ps with
          | nil =>
              obtain ⟨v, hv⟩ := hpop.exists_value
              obtain rfl := Except.ok.inj (gaps_nil.symm.trans h)
              intro g hg
              obtain rfl := List.mem_singleton.mp hg
              exact ⟨v, hv, by simp, .anything v⟩
          | cons p ps =>
              cases p with
              | wildcard => cases hirr
              | var name => cases hirr
              | int k => exact reportsOnly_int hirr ht h
              | bool b => exact reportsOnly_bool hirr ht h
              | con c args =>
                  refine reportsOnly_con hr hirr ht hnarrow hpop (fun d i u hu hpop gs hgs => ?_) h
                  refine ih _ ?_ _ hu (hnarrow.column d i) hpop hgs rfl
                  rw [← hn]
                  exact sizeList_column_lt d i (List.cons_ne_nil _ _)
              | tuple elems => cases hnarrow _ List.mem_cons_self
              | record fields => cases hnarrow _ List.mem_cons_self

/-- Hence so is every text. -/
theorem missingCases_reportsOnly {decls : List Decl} (hr : Registry.build decls = .ok r) {ps : List Pattern} {t : Ty}
    (ht : AllTyped r ps t) (hnarrow : AllNarrow ps) (hpop : t.Populated r isFn) {missing : List String}
    (h : missingCases r ps = .ok missing) :
    ∀ text ∈ missing, ∃ v : Value F, ValueType r isFn v t ∧ (∀ p ∈ ps, ¬ p.Accepts v) ∧
      TextDescribes {p | p ∈ ps} text v := by
  obtain ⟨gs, hgs, h⟩ := bind_eq_ok_iff.mp h
  cases h
  refine List.forall_mem_map.mpr fun g hg => ?_
  obtain ⟨v, hv, hno, hdesc⟩ := gaps_reportsOnly hr ps ht hnarrow hpop hgs g hg
  exact ⟨v, hv, hno, textDescribes_of_gaps ps gs hgs g hg v hdesc⟩

end Coverage

/-! ## Missing cases -/

/-- **The check is exact for narrow patterns.** At a populated type the list of missing cases is empty exactly
when every value is accepted, and every text in it describes a value that no pattern accepts. -/
theorem missingCases_exact {decls : List Decl} (hr : Registry.build decls = .ok r) {ps : List Pattern}
    {t : Ty} (ht : ∀ p ∈ ps, ∃ bs, PatternType r p t bs) (hnarrow : ∀ p ∈ ps, p.Narrow)
    (hpop : t.Populated r isFn) :
    ∃ missing, Coverage.missingCases r ps = .ok missing ∧
      (missing = [] ↔ ∀ v : Value F, ValueType r isFn v t → ∃ p ∈ ps, p.Accepts v) ∧
      ∀ text ∈ missing, ∃ v : Value F, ValueType r isFn v t ∧ (∀ p ∈ ps, ¬ p.Accepts v) ∧
        Coverage.TextDescribes {p | p ∈ ps} text v := by
  obtain ⟨missing, hmissing, hall⟩ := Coverage.missingCases_spec (Registry.build_wellFormed hr) ht
  have honly := Coverage.missingCases_reportsOnly hr ht hnarrow hpop hmissing
  refine ⟨missing, hmissing, ⟨?_, fun hcovered => ?_⟩, honly⟩
  · rintro rfl v hv
    exact hall.exists_accepts hv
  · refine List.eq_nil_iff_forall_not_mem.mpr fun text htext => ?_
    obtain ⟨v, hv, hno, -⟩ := honly text htext
    obtain ⟨p, hp, haccepts⟩ := hcovered v hv
    exact hno p hp haccepts

/-- What is registered about the constructor without a value. -/
def noneInfo : ConstructorInfo := ⟨"None", "Option", ["a"], [], ["None", "Some"]⟩

theorem build_optionDecls_none :
    ∃ r, Registry.build optionDecls = .ok r ∧ r.constructors["None"]? = some noneInfo ∧
      r.constructors["Some"]? = some someInfo := by
  have heval : (Registry.build optionDecls).toOption.map
      (fun r => (r.constructors["None"]?, r.constructors["Some"]?)) = some (some noneInfo, some someInfo) := rfl
  obtain ⟨r, hopt, hentries⟩ := Option.map_eq_some_iff.mp heval
  obtain ⟨hnone, hsome⟩ := Prod.mk.inj hentries
  exact ⟨r, eq_ok_of_toOption hopt, hnone, hsome⟩

theorem populated_bool : Ty.bool.Populated r isFn := by
  intro u hu
  cases hu
  exact ⟨.bool true, .bool true⟩

theorem populated_option (hr : Registry.build optionDecls = .ok r)
    (hnone : r.constructors["None"]? = some noneInfo) (hsome : r.constructors["Some"]? = some someInfo)
    {t : Ty} (h : t.Populated r isFn) : (Ty.sum "Option" [t]).Populated r isFn := by
  intro u hu
  generalize hopt : Ty.sum "Option" [t] = opt at hu
  cases hu with
  | refl =>
      subst hopt
      exact ⟨.con "None" [], .con hnone rfl .nil⟩
  | @field name c ts u' _ hc _ hmem hreach =>
      obtain ⟨htypeName, rfl⟩ := Ty.sum.inj hopt
      have hname : name ∈ ["None", "Some"] :=
        (Registry.build_wellFormed hr).sibling_mem "Some" name someInfo c hsome hc htypeName
      rcases List.mem_pair.mp hname with rfl | rfl
      · obtain rfl := Option.some.inj (hnone.symm.trans hc)
        cases hmem
      · obtain rfl := Option.some.inj (hsome.symm.trans hc)
        have hu' : u' = t := List.mem_singleton.mp hmem
        exact h u (hu' ▸ hreach)

theorem missingCases_exact_option :
    ∃ r, Registry.build optionDecls = .ok r ∧
      Coverage.missingCases r [.con "None" [], .con "Some" [.con "Some" [.bool true]]] =
        .ok ["Some None", "Some (Some false)"] ∧
      ∀ text ∈ ["Some None", "Some (Some false)"], ∃ v : Value Empty,
        ValueType r (fun _ _ _ => False) v (.sum "Option" [.sum "Option" [.bool]]) ∧
        (∀ p ∈ [Pattern.con "None" [], .con "Some" [.con "Some" [.bool true]]], ¬ p.Accepts v) ∧
        Coverage.TextDescribes {p | p ∈ [.con "None" [], .con "Some" [.con "Some" [.bool true]]]} text v := by
  obtain ⟨r, hr, hnone, hsome⟩ := build_optionDecls_none
  have htyped : ∀ p ∈ [Pattern.con "None" [], .con "Some" [.con "Some" [.bool true]]],
      ∃ bs, PatternType r p (.sum "Option" [.sum "Option" [.bool]]) bs := by
    have hinner : PatternType r (.con "Some" [.bool true]) (.sum "Option" [.bool]) [] :=
      .con hsome rfl (.cons (.bool true) .nil)
    refine List.forall_mem_cons.mpr ⟨⟨[], .con hnone rfl .nil⟩, List.forall_mem_singleton.mpr ⟨[], ?_⟩⟩
    exact .con hsome rfl (.cons hinner .nil)
  have hnarrow : ∀ p ∈ [Pattern.con "None" [], .con "Some" [.con "Some" [.bool true]]], p.Narrow := by
    refine List.forall_mem_cons.mpr ⟨.con (by decide) (by simp), List.forall_mem_singleton.mpr ?_⟩
    refine .con (by decide) (List.forall_mem_singleton.mpr (.con (by decide) ?_))
    exact List.forall_mem_singleton.mpr (.bool true)
  have hpop : (Ty.sum "Option" [.sum "Option" [.bool]]).Populated r fun (_ : Empty) _ _ => False :=
    populated_option hr hnone hsome (populated_option hr hnone hsome populated_bool)
  have heval : (Registry.build optionDecls).toOption.map (fun r =>
      (Coverage.missingCases r [.con "None" [], .con "Some" [.con "Some" [.bool true]]]).toOption) =
        some (some ["Some None", "Some (Some false)"]) := by
    cbv
  rw [hr] at heval
  have hmissing := eq_ok_of_toOption (Option.some.inj heval)
  obtain ⟨missing, hmissing', -, hreal⟩ := missingCases_exact hr htyped hnarrow hpop
  obtain rfl := Except.ok.inj (hmissing.symm.trans hmissing')
  exact ⟨r, hr, hmissing, hreal⟩

end Polytype
