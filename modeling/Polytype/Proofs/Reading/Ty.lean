/-
# Polytype.Proofs.Reading.Ty — the text of a type determines the type.

The types of inference are written in the notation for types of the surface language (`Ty.written`,
`render_written`), whose texts can be read back, and what was written can be told from the notation
(`unwritten_written`).  So two types with the same text are equal (`Ty.render_eq_iff`), if only their names are
such that a sum is not taken for a variable or for a primitive type, and no tuple is taken for a type in
parentheses.
-/
import Polytype.Proofs.Reading.TypeExpr
import Polytype.Proofs.Registry.Ascription
import Polytype.Ty.Text
import Std.Data.String.ToInt

namespace Polytype

open Filter Reader Text

/-! ## Legible types -/

namespace Ty

mutual
/-- Whether no tuple has one component, sums have names of their own, beginning with a capital letter, and fields
have names. -/
def legible : Ty → Bool
  | .prim _ => true
  | .var _ => true
  | .fn dom cod => dom.legible && cod.legible
  | .tuple elems => elems.length != 1 && legibleList elems
  | .record fields => legibleFields fields
  | .sum name args => Name.isIdentifier Char.isUpper name && (Prim.named? name).isNone && legibleList args
  | .absent => true
/-- Whether all types of a list are legible. -/
def legibleList : List Ty → Bool
  | [] => true
  | t :: ts => t.legible && legibleList ts
/-- Whether all labelled types are legible, with names for labels. -/
def legibleFields : List (String × Ty) → Bool
  | [] => true
  | (l, t) :: fs => Name.isIdentifier Name.wordStart l && t.legible && legibleFields fs
end

/-! ## Types in the notation of the surface language -/

mutual
/-- The type as a program would write it; a variable is known by its number. -/
def written : Ty → TypeExpr
  | .prim p => .con p.name []
  | .var v => .var (TyVar.render v)
  | .fn dom cod => .arrow dom.written cod.written
  | .tuple elems => .tuple (writtenList elems)
  | .record fields => .record (writtenFields fields)
  | .sum name args => .con name (writtenList args)
  | .absent => .var "<null>"
/-- Types as a program would write them. -/
def writtenList : List Ty → List TypeExpr
  | [] => []
  | t :: ts => t.written :: writtenList ts
/-- Labelled types as a program would write them. -/
def writtenFields : List (String × Ty) → List (String × TypeExpr)
  | [] => []
  | (l, t) :: fs => (l, t.written) :: writtenFields fs
end

theorem writtenList_eq (ts : List Ty) : writtenList ts = ts.map written := by
  induction ts with
  | nil => rfl
  | cons t ts ih => rw [writtenList, ih, List.map_cons]

theorem writtenFields_eq (fs : List (String × Ty)) :
    writtenFields fs = fs.map fun f => (f.1, f.2.written) := by
  induction fs with
  | nil => rfl
  | cons f fs ih => rw [writtenFields, ih, List.map_cons]

theorem isArrow_written (t : Ty) : t.written.isArrow = t.isFn := by
  cases t <;> rfl

theorem isCompound_written (t : Ty) : t.written.isCompound = t.isCompound := by
  cases t with
  | sum name args => simp [written, TypeExpr.isCompound, isCompound, writtenList_eq]
  | _ => rfl

theorem renderList_eq (ts : List Ty) : renderList ts = ts.map render := by
  induction ts with
  | nil => rfl
  | cons t ts ih => rw [renderList, ih, List.map_cons]

theorem renderFields_eq (fs : List (String × Ty)) :
    renderFields fs = fs.map fun f => f.1 ++ ": " ++ f.2.render := by
  induction fs with
  | nil => rfl
  | cons f fs ih => rw [renderFields, ih, List.map_cons]

theorem renderArgs_eq (ts : List Ty) :
    renderArgs ts = String.join (ts.map fun t => " " ++ parensIf t.isCompound t.render) := by
  induction ts with
  | nil => rfl
  | cons t ts ih => rw [renderArgs, ih, List.map_cons, String.join_cons]

/-- Both notations have the same texts. -/
theorem render_written (t : Ty) : t.written.render = t.render := by
  induction t with
  | prim p => simp [written, TypeExpr.render, TypeExpr.renderArgs, render]
  | var v => rfl
  | fn dom cod ihd ihc => simp only [written, TypeExpr.render, render, isArrow_written, ihd, ihc]
  | tuple elems ih =>
      have hmap : elems.map (TypeExpr.render ∘ written) = elems.map render := List.map_congr_left ih
      rw [written, TypeExpr.render, render, TypeExpr.renderList_eq, renderList_eq, writtenList_eq, List.map_map,
        hmap]
  | record fields ih =>
      have hmap : fields.map ((fun f => f.1 ++ ": " ++ f.2.render) ∘ fun f => (f.1, f.2.written)) =
          fields.map fun f => f.1 ++ ": " ++ f.2.render := List.map_congr_left fun f hf => by
        simp only [Function.comp_apply, ih f hf]
      rw [written, TypeExpr.render, render, TypeExpr.renderFields_eq, renderFields_eq, writtenFields_eq,
        List.map_map, hmap]
  | sum name args ih =>
      have hmap : args.map ((fun t => " " ++ parensIf t.isCompound t.render) ∘ written) =
          args.map fun t => " " ++ parensIf t.isCompound t.render := List.map_congr_left fun t ht => by
        simp only [Function.comp_apply, isCompound_written, ih t ht]
      rw [written, TypeExpr.render, render, TypeExpr.renderArgs_eq, renderArgs_eq, writtenList_eq, List.map_map,
        hmap]
  | absent => rfl

end Ty

mutual
/-- The type of inference that was written like this. -/
def TypeExpr.unwritten : TypeExpr → Ty
  | .con name args =>
    match Prim.named? name with
    | some p => .prim p
    | none => .sum name (unwrittenList args)
  | .var name =>
    if name = "<null>" then .absent else .var ((String.ofList name.toList.tail).toInt?.getD 0)
  | .arrow dom cod => .fn dom.unwritten cod.unwritten
  | .tuple elems => .tuple (unwrittenList elems)
  | .record fields => .record (unwrittenFields fields)
/-- The types of inference that were written like these. -/
def TypeExpr.unwrittenList : List TypeExpr → List Ty
  | [] => []
  | t :: ts => t.unwritten :: unwrittenList ts
/-- The labelled types of inference that were written like these. -/
def TypeExpr.unwrittenFields : List (String × TypeExpr) → List (String × Ty)
  | [] => []
  | (l, t) :: fs => (l, t.unwritten) :: unwrittenFields fs
end

namespace TypeExpr

theorem unwrittenList_eq (ts : List TypeExpr) : unwrittenList ts = ts.map unwritten := by
  induction ts with
  | nil => rfl
  | cons t ts ih => rw [unwrittenList, ih, List.map_cons]

theorem unwrittenFields_eq (fs : List (String × TypeExpr)) :
    unwrittenFields fs = fs.map fun f => (f.1, f.2.unwritten) := by
  induction fs with
  | nil => rfl
  | cons f fs ih => rw [unwrittenFields, ih, List.map_cons]

end TypeExpr

namespace Ty

theorem legibleList_iff {ts : List Ty} : legibleList ts = true ↔ ∀ t ∈ ts, t.legible = true := by
  induction ts with
  | nil => simp [legibleList]
  | cons t ts ih => rw [legibleList, Bool.and_eq_true, ih, List.forall_mem_cons]

theorem legibleFields_iff {fs : List (String × Ty)} : legibleFields fs = true ↔
    ∀ f ∈ fs, Name.isIdentifier Name.wordStart f.1 = true ∧ f.2.legible = true := by
  induction fs with
  | nil => simp [legibleFields]
  | cons f fs ih => rw [legibleFields, Bool.and_eq_true, Bool.and_eq_true, ih, List.forall_mem_cons]

theorem toList_render_var (v : TyVar) : (TyVar.render v).toList = 't' :: v.repr.toList := by
  rw [TyVar.render, String.toList_append, Int.toString_eq_repr]
  rfl

/-- What was written can be told from the notation. -/
theorem unwritten_written {t : Ty} (h : t.legible = true) : t.written.unwritten = t := by
  induction t with
  | prim p => rw [written, TypeExpr.unwritten, Prim.named?_name]
  | var v =>
      have hne : TyVar.render v ≠ "<null>" := by
        intro h
        have hlist := toList_render_var v
        rw [h] at hlist
        cases hlist
      rw [written, TypeExpr.unwritten, if_neg hne, toList_render_var, List.tail_cons, String.ofList_toList,
        Int.toInt?_repr, Option.getD_some]
  | fn dom cod ihd ihc =>
      rw [legible, Bool.and_eq_true] at h
      rw [written, TypeExpr.unwritten, ihd h.1, ihc h.2]
  | tuple elems ih =>
      rw [legible, Bool.and_eq_true, legibleList_iff] at h
      have hmap : elems.map (TypeExpr.unwritten ∘ written) = elems :=
        (List.map_congr_left fun t ht => ih t ht (h.2 t ht)).trans elems.map_id'
      rw [written, TypeExpr.unwritten, writtenList_eq, TypeExpr.unwrittenList_eq, List.map_map, hmap]
  | record fields ih =>
      rw [legible, legibleFields_iff] at h
      have hmap : fields.map ((fun f => (f.1, f.2.unwritten)) ∘ fun f => (f.1, f.2.written)) = fields :=
        (List.map_congr_left fun f hf => congrArg (Prod.mk f.1) (ih f hf (h f hf).2)).trans fields.map_id'
      rw [written, TypeExpr.unwritten, writtenFields_eq, TypeExpr.unwrittenFields_eq, List.map_map, hmap]
  | sum name args ih =>
      rw [legible, Bool.and_eq_true, Bool.and_eq_true, legibleList_iff, Option.isNone_iff_eq_none] at h
      have hmap : args.map (TypeExpr.unwritten ∘ written) = args :=
        (List.map_congr_left fun t ht => ih t ht (h.2 t ht)).trans args.map_id'
      rw [written, TypeExpr.unwritten, h.1.2, writtenList_eq, TypeExpr.unwrittenList_eq, List.map_map, hmap]
  | absent => rfl

/-! ## Reading types of inference -/

theorem readable_written {t : Ty} (h : t.legible = true) : t.written.Readable := by
  induction t with
  | prim p => cases p <;> exact .con ⟨⟨_, rfl, rfl, rfl⟩, List.all_eq_true.mp rfl⟩ (by simp)
  | var v =>
      refine .var ⟨⟨'t', by rw [toList_render_var]; rfl, rfl, rfl⟩, fun c hc => ?_⟩
      rw [toList_render_var] at hc
      rcases List.mem_cons.mp hc with rfl | hc
      · rfl
      · rcases isDigit_of_mem_repr_int hc with rfl | hc
        · rfl
        · exact TypeExpr.nameChar_of_wordChar (Name.wordChar_of_isDigit hc)
  | fn dom cod ihd ihc =>
      rw [legible, Bool.and_eq_true] at h
      exact .arrow (ihd h.1) (ihc h.2)
  | tuple elems ih =>
      rw [legible, Bool.and_eq_true, legibleList_iff, bne_iff_ne] at h
      rw [written, writtenList_eq]
      exact .tuple (by simpa using h.1) (List.forall_mem_map.mpr fun t ht => ih t ht (h.2 t ht))
  | record fields ih =>
      rw [legible, legibleFields_iff] at h
      rw [written, writtenFields_eq]
      refine .record (List.forall_mem_map.mpr fun f hf c hc => ?_)
        (List.forall_mem_map.mpr fun f hf => ih f hf (h f hf).2)
      exact TypeExpr.nameChar_of_wordChar ((Name.isIdentifier_iff.mp (h f hf).1).2 c hc)
  | sum name args ih =>
      rw [legible, Bool.and_eq_true, Bool.and_eq_true, legibleList_iff] at h
      rw [written, writtenList_eq]
      have hname : TypeExpr.NameOf Char.isUpper name := .of_isIdentifier h.1.1 fun c hc =>
        ⟨TypeExpr.nameStart_of_isUpper hc, hc⟩
      exact .con hname (List.forall_mem_map.mpr fun t ht => ih t ht (h.2 t ht))
  | absent => exact .var ⟨⟨'<', rfl, rfl, rfl⟩, List.all_eq_true.mp rfl⟩

/-- **The text of a type determines the type.** -/
theorem render_eq_iff {t u : Ty} (ht : t.legible = true) (hu : u.legible = true) :
    t.render = u.render ↔ t = u := by
  refine ⟨fun h => ?_, congrArg render⟩
  obtain ⟨n, htn, hun⟩ :=
    ((readable_written ht).eventually_taken.and (readable_written hu).eventually_taken).exists
  have htext : t.written.render = u.written.render := by rw [render_written, render_written, h]
  have hwritten : t.written = u.written :=
    htn.whole.unique (htext ▸ hun.whole) ⟨⟨by simp [Stops], rfl⟩, rfl⟩
  rw [← unwritten_written ht, hwritten, unwritten_written hu]

/-- A function of functions with options, an empty tuple and an empty record in its type. -/
def consumer : Ty :=
  .fn (.fn (.sum "Option" [.sum "Option" [.var (-1)]]) (.tuple [])) (.record [("rest", .record []), ("tag", .int)])

/-- The same with the arrows nested to the other side. -/
def producer : Ty :=
  .fn (.sum "Option" [.sum "Option" [.var (-1)]])
    (.fn (.tuple []) (.record [("rest", .record []), ("tag", .int)]))

theorem render_eq_iff_arrows :
    consumer.legible = true ∧ producer.legible = true ∧ consumer.render ≠ producer.render := by
  have hiff := render_eq_iff (t := consumer) (u := producer) (by decide) (by decide)
  exact ⟨by decide, by decide, fun h => absurd (hiff.mp h) (by decide)⟩

end Ty

end Polytype
