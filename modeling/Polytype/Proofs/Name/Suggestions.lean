/-
# Polytype.Proofs.Name.Suggestions — which names are similar, and which one is suggested.

Among the candidates, those that differ from a name and are near enough are listed by their distance and then by their
bytes (`Nearer`).  No two names are nearer than each other (`Nearer.antisymm`), so a list of candidates can be listed in one
such order only: the order in which the candidates were given is forgotten (`similar_perm`).  Names are texts of
characters here, and so are the candidates; the bytes are those of the characters.

A suggestion is the first name of the list.  It is a nearest one of the known names, and the least in byte order among
the nearest; and there is one as soon as any known name is near enough (`suggests_nearest?`).
-/
import Mathlib.Data.List.Sort
import Mathlib.Order.Bounds.Defs
import Polytype.Env
import Polytype.Proofs.Name.Bytes
import Polytype.Proofs.Name.EditScripts
import Polytype.Registry

namespace Polytype

namespace Name

/-! ## The order of similar names -/

/-- One name is nearer to the target than another, or as near and not behind it in the order of bytes. -/
def Nearer (target a b : String) : Prop :=
  distance target a < distance target b ∨ distance target a = distance target b ∧ bytes a ≤ bytes b

variable {target a b c : String} {candidates : List String} {limit : Int}

theorem Nearer.antisymm (hab : Nearer target a b) (hba : Nearer target b a) : a = b := by
  rcases hab with hab | ⟨hab, hle⟩
  · rcases hba with hba | ⟨hba, -⟩ <;> omega
  · rcases hba with hba | ⟨-, hge⟩
    · omega
    · exact le_antisymm (bytes_le_iff.mp hle) (bytes_le_iff.mp hge)

theorem nearer_iff {x y : Nat × String} : nearer x y = true ↔ x.1 < y.1 ∨ x.1 = y.1 ∧ x.2 ≤ y.2 := by
  simp only [nearer, Bool.or_eq_true, Bool.and_eq_true, decide_eq_true_eq, beq_iff_eq]

theorem nearer_trans (x y z : Nat × String) (hxy : nearer x y = true) (hyz : nearer y z = true) :
    nearer x z = true := by
  rw [nearer_iff] at hxy hyz ⊢
  rcases hxy with hxy | ⟨hxy, hle⟩ <;> rcases hyz with hyz | ⟨hyz, hle'⟩
  · exact Or.inl (Nat.lt_trans hxy hyz)
  · exact Or.inl (hyz ▸ hxy)
  · exact Or.inl (hxy ▸ hyz)
  · exact Or.inr ⟨hxy.trans hyz, le_trans hle hle'⟩

theorem nearer_total (x y : Nat × String) : (nearer x y || nearer y x) = true := by
  rw [Bool.or_eq_true, nearer_iff, nearer_iff]
  rcases Nat.lt_trichotomy x.1 y.1 with hlt | heq | hgt
  · exact Or.inl (Or.inl hlt)
  · exact (le_total x.2 y.2).imp (fun h => Or.inr ⟨heq, h⟩) fun h => Or.inr ⟨heq.symm, h⟩
  · exact Or.inr (Or.inl hgt)

/-! ## The list of similar names -/

/-- Whether a candidate is another name than the target and near enough to it. -/
def isSimilar (target : String) (limit : Int) (c : String) : Bool :=
  c != target && (distance target c : Int) ≤ limit

/-- A name with its distance from the target. -/
def scored (target c : String) : Nat × String := (distance target c, c)

theorem nearer_scored : nearer (scored target a) (scored target b) = true ↔ Nearer target a b := by
  rw [nearer_iff, Nearer, bytes_le_iff]
  rfl

theorem similar_eq (target : String) (candidates : List String) (limit : Int) :
    similar target candidates limit =
      (((candidates.filter (isSimilar target limit)).map (scored target)).mergeSort nearer).map Prod.snd := by
  have hfilter : ((candidates.filter (· != target)).map (scored target)).filter (fun c => (c.1 : Int) ≤ limit) =
      (candidates.filter (isSimilar target limit)).map (scored target) := by
    rw [List.filter_map, List.filter_filter]
    refine congrArg _ (List.filter_congr fun c _ => ?_)
    exact Bool.and_comm _ _
  rw [← hfilter]
  rfl

/-- Exactly the candidates that are similar are listed, each as often as it was given. -/
theorem similar_perm_filter (target : String) (candidates : List String) (limit : Int) :
    (similar target candidates limit).Perm (candidates.filter (isSimilar target limit)) := by
  rw [similar_eq]
  refine ((List.mergeSort_perm _ _).map Prod.snd).trans ?_
  rw [List.map_map]
  exact List.Perm.of_eq (List.map_id _)

theorem similar_pairwise (target : String) (candidates : List String) (limit : Int) :
    (similar target candidates limit).Pairwise (Nearer target) := by
  rw [similar_eq, List.pairwise_map]
  refine (List.pairwise_mergeSort nearer_trans nearer_total _).imp_of_mem fun {x y} hx hy hxy => ?_
  obtain ⟨a, -, rfl⟩ := List.mem_map.mp (List.mem_mergeSort.mp hx)
  obtain ⟨b, -, rfl⟩ := List.mem_map.mp (List.mem_mergeSort.mp hy)
  exact nearer_scored.mp hxy

/-- The order of the candidates is forgotten. -/
theorem similar_perm {candidates' : List String} (h : candidates.Perm candidates') (limit : Int) :
    similar target candidates' limit = similar target candidates limit := by
  refine List.Perm.eq_of_pairwise (fun _ _ _ _ => Nearer.antisymm) (similar_pairwise target candidates' limit)
    (similar_pairwise target candidates limit) ?_
  exact (similar_perm_filter target candidates' limit).trans
    ((h.symm.filter _).trans (similar_perm_filter target candidates limit).symm)

theorem mem_similar : a ∈ similar target candidates limit ↔
    a ∈ candidates ∧ a ≠ target ∧ (distance target a : Int) ≤ limit := by
  rw [(similar_perm_filter target candidates limit).mem_iff, List.mem_filter]
  simp [isSimilar]

/-! ## The suggested name -/

/-- What is suggested in place of a name: of the known names at distance 2 or less, the least in byte order among the
nearest; and nothing only if there is no such name. -/
structure Suggests (target : String) (known : Set String) (suggestion : Option String) : Prop where
  eq_some_iff : ∀ s, suggestion = some s ↔
    s ∈ known ∧ distance target s ≤ 2 ∧ ∀ s' ∈ known, distance target s' ≤ 2 → Nearer target s s'
  isSome_iff : suggestion.isSome = true ↔ ∃ s ∈ known, distance target s ≤ 2

theorem Nearer.refl (target a : String) : Nearer target a a := Or.inr ⟨rfl, List.le_refl _⟩

theorem suggests_nearest? (htarget : target ∉ candidates) :
    Suggests target {s | s ∈ candidates} (nearest? target candidates) := by
  have hmem : ∀ s, s ∈ similar target candidates suggestionLimit ↔ s ∈ candidates ∧ distance target s ≤ 2 := by
    intro s
    rw [mem_similar, suggestionLimit]
    refine ⟨fun h => ⟨h.1, Int.ofNat_le.mp h.2.2⟩, fun h => ⟨h.1, ?_, Int.ofNat_le.mpr h.2⟩⟩
    rintro rfl
    exact htarget h.1
  have hsorted := similar_pairwise target candidates suggestionLimit
  rw [nearest?]
  cases hsimilar : similar target candidates suggestionLimit with
  | nil =>
      rw [hsimilar] at hmem
      have hnone : ∀ s ∈ candidates, ¬ distance target s ≤ 2 := fun s hs hle =>
        List.not_mem_nil ((hmem s).mpr ⟨hs, hle⟩)
      refine ⟨fun s => ⟨fun h => (by cases h), fun h => absurd h.2.1 (hnone s h.1)⟩, fun h => (by cases h), ?_⟩
      rintro ⟨s, hs, hle⟩
      exact absurd hle (hnone s hs)
  | cons first rest =>
      rw [hsimilar] at hmem hsorted
      obtain ⟨hfirst, -⟩ := List.pairwise_cons.mp hsorted
      have hnearest : ∀ s ∈ candidates, distance target s ≤ 2 → Nearer target first s := by
        intro s hs hle
        rcases List.mem_cons.mp ((hmem s).mpr ⟨hs, hle⟩) with rfl | hrest
        · exact .refl target s
        · exact hfirst s hrest
      obtain ⟨hknown, hnear⟩ := (hmem first).mp List.mem_cons_self
      refine ⟨fun s => ⟨?_, fun h => ?_⟩, fun _ => ⟨first, hknown, hnear⟩, fun _ => rfl⟩
      · rintro ⟨⟩
        exact ⟨hknown, hnear, hnearest⟩
      · exact congrArg some ((hnearest s h.1 h.2.1).antisymm (h.2.2 first hknown hnear))

/-- The names that a table knows are its keys. -/
theorem suggests_keys {β : Type} {table : Std.ExtTreeMap String β} (htarget : table[target]? = none) :
    Suggests target {s | s ∈ table} (nearest? target table.keys) := by
  have hmem : ∀ s, s ∈ table.keys ↔ s ∈ table := fun s => Std.ExtTreeMap.mem_keys
  have hnew : target ∉ table.keys := by
    rw [hmem]
    exact (getElem?_eq_none_iff table target).mp htarget
  simpa only [hmem] using suggests_nearest? hnew

end Name

theorem Env.suggests_of_lookup {Γ : Env} {name : String} {e : TypeError} (h : Γ.lookup name = .error e) :
    e.fault = .unboundVariable name ∧ Name.Suggests name {x | x ∈ Γ} e.nearest := by
  unfold Env.lookup at h
  split at h
  · cases h
  · next hnone =>
      cases h
      exact ⟨rfl, Name.suggests_keys hnone⟩

theorem Registry.suggests_of_require {r : Registry} {name : String} {e : TypeError}
    (h : r.require name = .error e) :
    e.fault = .unknownConstructor name ∧ Name.Suggests name {x | x ∈ r.constructors} e.nearest := by
  unfold Registry.require at h
  split at h
  · cases h
  · next hnone =>
      cases h
      exact ⟨rfl, Name.suggests_keys hnone⟩

namespace Name

/-- **Similar names are found exactly, in an order of their own.** Those candidates are listed, with their
multiplicity, that differ from the target and are no further from it than the limit, the nearest first and equally near
ones in the order of their bytes.  So the order of the candidates does not matter; and what a failing lookup of a
variable or of a constructor suggests is, in the order of bytes, the least of the nearest names at distance 2 or less,
if there are such names.  The distance is the least number of insertions, deletions and replacements of single bytes. -/
theorem similar_exact :
    (∀ (target : String) (candidates : List String) (limit : Int),
      (similar target candidates limit).Perm
          (candidates.filter fun c => c ≠ target ∧ (distance target c : Int) ≤ limit) ∧
        (similar target candidates limit).Pairwise (Nearer target) ∧
        ∀ candidates' : List String, candidates.Perm candidates' →
          similar target candidates' limit = similar target candidates limit) ∧
      (∀ (Γ : Env) (name : String) (e : TypeError), Γ.lookup name = .error e →
        e.fault = .unboundVariable name ∧ Suggests name {x | x ∈ Γ} e.nearest) ∧
      (∀ (r : Registry) (name : String) (e : TypeError), r.require name = .error e →
        e.fault = .unknownConstructor name ∧ Suggests name {x | x ∈ r.constructors} e.nearest) ∧
      ∀ a b : String, IsLeast
        {n | ∃ script : List (Edit UInt8), script.length = n ∧ runScript script (bytes a) = some (bytes b)}
        (distance a b) := by
  refine ⟨fun target candidates limit => ⟨?_, similar_pairwise _ _ _, fun _ h => similar_perm h limit⟩,
    fun _ _ _ => Env.suggests_of_lookup, fun _ _ _ => Registry.suggests_of_require, fun a b => ⟨?_, ?_⟩⟩
  · refine (similar_perm_filter target candidates limit).trans (List.Perm.of_eq (List.filter_congr fun c _ => ?_))
    rw [Bool.eq_iff_iff]
    simp [isSimilar]
  · exact exists_shortest_script (bytes a) (bytes b)
  · rintro n ⟨script, rfl, hrun⟩
    exact editDistance_le_of_script hrun

/-- Two names in scope are equally near to the misspelt one. -/
theorem similar_exact_misspelt :
    similar "lenght" ["lent", "width", "length", "lenght", "lent"] 2 =
        similar "lenght" ["lenght", "lent", "lent", "length", "width"] 2 ∧
      ∃ e, Env.lookup (((∅ : Env).bindTy "lent" .int).bindTy "length" .int) "lenght" = .error e ∧
        e.fault = .unboundVariable "lenght" ∧ e.nearest = some "length" := by
  obtain ⟨hsimilar, hlookup, -⟩ := similar_exact
  have hperm : ["lenght", "lent", "lent", "length", "width"].Perm ["lent", "width", "length", "lenght", "lent"] := by
    decide
  have hnone : (((∅ : Env).bindTy "lent" .int).bindTy "length" .int)["lenght"]? = none := by
    simp [Env.bindTy]
  have hfails : Env.lookup (((∅ : Env).bindTy "lent" .int).bindTy "length" .int) "lenght" = .error
      ⟨.unboundVariable "lenght", nearest? "lenght" (((∅ : Env).bindTy "lent" .int).bindTy "length" .int).keys⟩ := by
    rw [Env.lookup, hnone]
  obtain ⟨hfault, hsuggests⟩ := hlookup _ _ _ hfails
  refine ⟨(hsimilar "lenght" _ 2).2.2 _ hperm, _, hfails, hfault, (hsuggests.eq_some_iff "length").mpr ?_⟩
  refine ⟨by simp [Env.bindTy], by decide, fun s hs _ => ?_⟩
  have hs : "length" = s ∨ "lent" = s := by simpa [Env.bindTy, Std.LawfulEqCmp.compare_eq_iff_eq] using hs
  rcases hs with rfl | rfl
  · exact .refl _ _
  · exact Or.inr (by decide)

end Name

end Polytype
