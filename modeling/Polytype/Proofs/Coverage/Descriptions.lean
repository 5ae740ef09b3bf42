/-
# Polytype.Proofs.Coverage.Descriptions — what the texts of missing cases say.

An author sees the missing cases as texts.  `TextDescribes S text v` is how such a text is read, where `S` are the
patterns of the match: it says of the characters themselves which values they stand for, and knows nothing of gaps and
of the way in which these are printed.  Only one text depends on the patterns: the other integers are those that do
not stand in the same place of some pattern, where a place is reached through constructors (`inArgument`).

The texts of the gaps that the check finds are read as the gaps are meant (`textDescribes_of_gaps`).  The set of listed
integers that a gap carries comes from rows with a sole test, while the reading goes by all patterns in the
place; but gaps inside a constructor are reported only if all its rows have a sole test, and other patterns in the
place are then irrefutable and list nothing.
-/
import Mathlib.Data.List.Forall2
import Mathlib.Data.Set.Defs
import Polytype.Proofs.Coverage.Totality
import Polytype.Proofs.Coverage.Values

namespace Polytype

variable {F : Type} {r : Registry}

namespace Coverage

/-! ## Reading a text -/

/-- The patterns that stand at argument `i` of the patterns for the constructor `c`. -/
def inArgument (c : String) (i : Nat) (S : Set Pattern) : Set Pattern :=
  {p | ∃ args, .con c args ∈ S ∧ args[i]? = some p}

/-- Texts as arguments: each after a blank, and in parentheses if there is a blank in it. -/
def asArguments : List String → String
  | [] => ""
  | text :: texts =>
      (if ' ' ∈ text.toList then " (" ++ text ++ ")" else " " ++ text) ++ asArguments texts

/-- The text, read where the patterns of `S` stand, describes the value. -/
inductive TextDescribes : Set Pattern → String → Value F → Prop
  | anything (S : Set Pattern) (v : Value F) : TextDescribes S "_" v
  | trueWord (S : Set Pattern) : TextDescribes S "true" (.bool true)
  | falseWord (S : Set Pattern) : TextDescribes S "false" (.bool false)
  | otherIntegers {S : Set Pattern} {n : Int} : .int n ∉ S → TextDescribes S "<other integers>" (.int n)
  /-- The bare name of a constructor stands for all that it builds. -/
  | bare (S : Set Pattern) (name : String) (vs : List (Value F)) : TextDescribes S name (.con name vs)
  /-- Descriptions after the name of a constructor are about its arguments, one by one. -/
  | con {S : Set Pattern} {name : String} {texts : List String} {vs : List (Value F)} :
      texts.length = vs.length →
      (∀ i text v, texts[i]? = some text → vs[i]? = some v → TextDescribes (inArgument name i S) text v) →
      TextDescribes S (name ++ asArguments texts) (.con name vs)

/-- A text describes no less where there are fewer patterns, and irrefutable ones do not count. -/
theorem TextDescribes.of_refutable {S T : Set Pattern} {text : String} {v : Value F}
    (h : TextDescribes S text v) (hsub : ∀ p ∈ T, p.isIrrefutable = false → p ∈ S) : TextDescribes T text v := by
  induction h generalizing T with
  | anything _ v => exact .anything T v
  | trueWord => exact .trueWord T
  | falseWord => exact .falseWord T
  | otherIntegers hn => exact .otherIntegers fun hmem => hn (hsub _ hmem rfl)
  | bare _ name vs => exact .bare T name vs
  | con hlen _ ih =>
      refine .con hlen fun i text v htext hv => ih i text v htext hv ?_
      rintro p ⟨args, hargs, hp⟩ -
      exact ⟨args, hsub _ hargs rfl, hp⟩

/-! ## The texts of gaps -/

theorem renderArgs_eq (gs : List Gap) : Gap.renderArgs gs = asArguments (gs.map Gap.render) := by
  induction gs with
  | nil => rfl
  | cons g gs ih =>
      rw [Gap.renderArgs, List.map_cons, asArguments, ih, Gap.nested, Text.parensIf]
      by_cases hblank : ' ' ∈ g.render.toList
      · rw [if_pos (List.contains_iff_mem.mpr hblank), if_pos hblank, Text.parens]
        simp only [← String.append_assoc]
        rfl
      · rw [if_neg (mt List.contains_iff_mem.mp hblank), if_neg hblank]

theorem describeAll_iff {gs : List Gap} {vs : List (Value F)} :
    Gap.DescribeAll gs vs ↔ List.Forall₂ Gap.Describes gs vs := by
  constructor
  · intro h
    induction gs generalizing vs with
    | nil =>
        cases h
        exact .nil
    | cons g gs ih =>
        cases h with
        | cons hg hgs => exact .cons hg (ih hgs)
  · intro h
    induction h with
    | nil => exact .nil
    | cons hg _ ih => exact .cons hg ih

/-- The text of a constructor says what it should, if the texts of its arguments do. -/
theorem textDescribes_con {S : Set Pattern} {name : String} {args : List Gap} {v : Value F}
    (hargs : ∀ i g, args[i]? = some g → ∀ w : Value F, g.Describes w → TextDescribes (inArgument name i S) g.render w)
    (h : (Gap.con name args).Describes v) : TextDescribes S (Gap.con name args).render v := by
  rw [Gap.render, renderArgs_eq]
  cases h with
  | bare name vs =>
      rw [List.map_nil, asArguments, String.append_empty]
      exact .bare S name vs
  | con hall =>
      obtain ⟨hlen, hget⟩ := List.forall₂_iff_get.mp (describeAll_iff.mp hall)
      refine .con ((List.length_map _).trans hlen) fun i text w htext hw => ?_
      rw [List.getElem?_map] at htext
      obtain ⟨g, hg, rfl⟩ := Option.map_eq_some_iff.mp htext
      obtain ⟨hi, rfl⟩ := List.getElem?_eq_some_iff.mp hg
      obtain ⟨hi', rfl⟩ := List.getElem?_eq_some_iff.mp hw
      exact hargs i _ hg _ (hget i hi hi')

theorem textDescribes_anything {S : Set Pattern} {v : Value F} : TextDescribes S Gap.anything.render v :=
  .anything S v

theorem textDescribes_bool {S : Set Pattern} {b : Bool} {v : Value F} (h : (Gap.bool b).Describes v) :
    TextDescribes S (Gap.bool b).render v := by
  cases h
  cases b with
  | true => exact .trueWord S
  | false => exact .falseWord S

/-- Where all rows have a sole test, what can fail at an argument stands in its column. -/
theorem mem_column_of_inArgument {d : String} {i : Nat} {ps : List Pattern} {p : Pattern}
    (hone : ∀ row ∈ rowsOf d ps, ∃ q j, tests row = [(q, j)]) (hp : p ∈ inArgument d i {p | p ∈ ps})
    (hfails : p.isIrrefutable = false) : p ∈ column d i ps := by
  obtain ⟨row, hrow, hp⟩ := hp
  obtain ⟨q, j, htests⟩ := hone row (mem_rowsOf.mpr hrow)
  have hmem : (p, i) ∈ tests row := mem_tests.mpr ⟨hp, hfails⟩
  rw [htests] at hmem
  obtain ⟨rfl, rfl⟩ := Prod.mk.inj (List.mem_singleton.mp hmem)
  exact mem_column.mpr ⟨row, hrow, htests⟩

/-- The text of every gap describes what the gap describes. -/
def TextsDescribe (r : Registry) (F : Type) (ps : List Pattern) : Prop :=
  ∀ gs, gaps r ps = .ok gs → ∀ g ∈ gs, ∀ v : Value F, g.Describes v → TextDescribes {p | p ∈ ps} g.render v

theorem constructorCheck_text {ps : List Pattern} {d : String} (ih : ∀ i, TextsDescribe r F (column d i ps))
    {gs : List Gap} (h : constructorCheck r ps d = .ok gs) {g : Gap} (hg : g ∈ gs) {v : Value F}
    (hv : g.Describes v) : TextDescribes {p | p ∈ ps} g.render v := by
  obtain ⟨info, -, h⟩ := bind_eq_ok_iff.mp h
  cases constructorGaps_answer h with
  | untested => exact absurd hg List.not_mem_nil
  | covered => exact absurd hg List.not_mem_nil
  | several =>
      obtain rfl := List.mem_singleton.mp hg
      refine textDescribes_con (fun i g hg w _ => ?_) hv
      obtain rfl := List.eq_of_mem_replicate (List.mem_of_getElem? hg)
      exact textDescribes_anything
  | columns hone hcolumns =>
      obtain ⟨j, -, here, hhere, g', hg', rfl⟩ := (columnGaps_some hcolumns).2 g hg
      refine textDescribes_con (fun i g hg w hw => ?_) hv
      rw [List.getElem?_set] at hg
      split at hg
      · next hji =>
          -- the argument that is described
          subst hji
          split at hg
          · cases hg
            exact (ih j here hhere g' hg' w hw).of_refutable fun p hp => mem_column_of_inArgument hone hp
          · cases hg
      · obtain rfl := List.eq_of_mem_replicate (List.mem_of_getElem? hg)
        exact textDescribes_anything

theorem gaps_con_text {c : String} {args : List Pattern} {ps : List Pattern}
    (hirr : (Pattern.con c args :: ps).any Pattern.isIrrefutable = false)
    (ih : ∀ d i, TextsDescribe r F (column d i (.con c args :: ps))) : TextsDescribe r F (.con c args :: ps) := by
  intro gs h g hg v hv
  simp only [gaps_con hirr, bind_eq_ok_iff, pure_eq_ok_iff] at h
  obtain ⟨owner, -, -, -, inner, hinner, rfl⟩ := h
  rcases List.mem_append.mp hg with hg | hg
  · obtain ⟨d, -, rfl⟩ := List.mem_map.mp hg
    exact textDescribes_con (fun i g hg => by simp at hg) hv
  · obtain ⟨gs, hgs, hg⟩ := List.mem_flatten.mp hg
    obtain ⟨d, -, hcheck⟩ := exists_of_mem_mapM hinner gs hgs
    exact constructorCheck_text (ih d) hcheck hg hv

theorem gaps_int_text {k : Int} {ps : List Pattern}
    (hirr : (Pattern.int k :: ps).any Pattern.isIrrefutable = false) : TextsDescribe r F (.int k :: ps) := by
  intro gs h g hg v hv
  obtain rfl := Except.ok.inj ((gaps_int hirr).symm.trans h)
  obtain rfl := List.mem_singleton.mp hg
  cases hv with
  | otherIntegers hn =>
      refine .otherIntegers fun hmem => hn ?_
      rw [Std.ExtTreeSet.mem_ofList, List.contains_iff_mem]
      exact List.mem_filterMap.mpr ⟨_, hmem, rfl⟩

/-- The texts of the gaps are read as the gaps are meant. -/
theorem textDescribes_of_gaps (ps : List Pattern) : TextsDescribe r F ps := by
  induction hn : Pattern.sizeList ps using Nat.strongRecOn generalizing ps with
  | ind n ih =>
      cases hirr : ps.any Pattern.isIrrefutable with
      | true =>
          intro gs h g hg
          obtain rfl := Except.ok.inj ((gaps_of_irrefutable hirr).symm.trans h)
          exact absurd hg List.not_mem_nil
      | false =>
          have hanything : gaps r ps = .ok [.anything] → TextsDescribe r F ps := by
            intro hgaps gs h g hg v _
            obtain rfl := Except.ok.inj (hgaps.symm.trans h)
            obtain rfl := List.mem_singleton.mp hg
            exact textDescribes_anything
          cases ps with
          | nil => exact hanything gaps_nil
          | cons p ps =>
              cases p with
              | wildcard => cases hirr
              | var name => cases hirr
              | int k => exact gaps_int_text hirr
              | bool b =>
                  intro gs h g hg v hv
                  obtain rfl := Except.ok.inj ((gaps_bool hirr).symm.trans h)
                  obtain ⟨b', -, rfl⟩ := List.mem_map.mp hg
                  exact textDescribes_bool hv
              | con c args =>
                  refine gaps_con_text hirr fun d i => ih _ ?_ _ rfl
                  rw [← hn]
                  exact sizeList_column_lt d i (List.cons_ne_nil _ _)
              | tuple elems => exact hanything (by rw [gaps.eq_def, hirr]; rfl)
              | record fields => exact hanything (by rw [gaps.eq_def, hirr]; rfl)

end Coverage

end Polytype
