/-
# Polytype.Proofs.Reading.TypeExpr — written types are read back.

A type stands in one of three positions: by itself, to the left of an arrow, or as an argument of a named type;
in the latter two it may be in parentheses.  There is a reader for each position, and each of them takes a type
from its text whatever follows, as long as it cannot belong to the type (`Readable.eventually_taken`).

Readers go down to a given depth of nesting.  A type is read at every depth that is large enough, and how large it
has to be is of no interest, so the statements are about all depths but finitely many.
-/
import Mathlib.Order.Filter.AtTopBot.Basic
import Mathlib.Order.Filter.Finite
import Polytype.Proofs.Reading.Reader
import Polytype.Surface.TypeExpr

namespace Polytype

open Filter Reader Text

/-! ## Enough depth -/

theorem eventually_of_succ {p : Nat → Prop} (h : ∀ᶠ n in atTop, p (n + 1)) : ∀ᶠ n in atTop, p n := by
  rw [← map_add_atTop_eq_nat 1]
  exact h

theorem eventually_forall_mem {α : Type} {p : Nat → α → Prop} {xs : List α}
    (h : ∀ a ∈ xs, ∀ᶠ n in atTop, p n a) : ∀ᶠ n in atTop, ∀ a ∈ xs, p n a :=
  (eventually_all_finite xs.finite_toSet).mpr h

namespace TypeExpr

/-! ## Readers of types -/

/-- The characters of names: all but those that types are built with. -/
def nameChar (c : Char) : Bool := !" ()\x7b\x7d,:".toList.contains c

/-- The characters that names begin with. -/
def nameStart (c : Char) : Bool := c.isAlpha || c == '_' || c == '<'

/-- Whether a type may begin with the character. -/
def opens (c : Char) : Bool := c == '(' || c == '\x7b' || nameStart c

/-- Whether another argument of a named type comes next. -/
def moreArgs : List Char → Bool
  | ' ' :: c :: _ => opens c
  | _ => false

/-- A word by itself: a type if it is capitalized, and otherwise a variable. -/
def ofWord (w : String) : TypeExpr := if w.toList.head?.any Char.isUpper then .con w [] else .var w

/-- The name of a type without arguments. -/
def bareName? : TypeExpr → Option String
  | .con name [] => some name
  | _ => none

/-- How types are written, arrows apart. -/
def forms : Forms TypeExpr where
  con := .con
  tuple := .tuple
  record := .record
  left := "\x7b"
  right := "\x7d"
  labelChar := nameChar
  bare := do return ofWord (← word nameChar)
  name? := bareName?
  more := moreArgs

/-- Reads a type that is nested to at most the given depth. -/
def read : Nat → Reader TypeExpr
  | 0 => failure
  | n + 1 => do
    let t ← forms.application (read n) n
    if ← accept " -> " then
      return .arrow t (← read n)
    else
      return t

/-! ## Types that can be read -/

/-- A name, whose first character is of a kind. -/
structure NameOf (kind : Char → Bool) (w : String) : Prop where
  head : ∃ c ∈ w.toList.head?, nameStart c = true ∧ kind c = true
  chars : ∀ c ∈ w.toList, nameChar c = true

theorem nameChar_of_wordChar {c : Char} (h : Name.wordChar c = true) : nameChar c = true := by
  rw [nameChar, Bool.not_eq_true', List.contains_eq_mem, decide_eq_false_iff_not]
  intro hc
  have hnot : " ()\x7b\x7d,:".toList.all (fun d => !Name.wordChar d) = true := rfl
  have hword := List.all_eq_true.mp hnot c hc
  rw [h] at hword
  cases hword

theorem nameStart_of_isUpper {c : Char} (h : c.isUpper = true) : nameStart c = true := by
  have halpha : c.isAlpha = true := Bool.or_eq_true_iff.mpr (Or.inl h)
  rw [nameStart, halpha]
  rfl

theorem NameOf.of_isIdentifier {start kind : Char → Bool} {w : String}
    (h : Name.isIdentifier start w = true)
    (hstart : ∀ c, start c = true → nameStart c = true ∧ kind c = true) : NameOf kind w := by
  obtain ⟨⟨c, cs, hcs, hc⟩, hall⟩ := Name.isIdentifier_iff.mp h
  exact ⟨⟨c, by rw [hcs]; rfl, hstart c hc⟩, fun d hd => nameChar_of_wordChar (hall d hd)⟩

theorem NameOf.begins {kind : Char → Bool} {w : String} (h : NameOf kind w) : BeginsWith nameStart w := by
  obtain ⟨c, hc, hstart, -⟩ := h.head
  obtain ⟨cs, hcs⟩ := List.head?_eq_some_iff.mp hc
  exact ⟨c, cs, hcs, hstart⟩

/-- Names of types and of variables are told apart, and no tuple has one component. -/
inductive Readable : TypeExpr → Prop
  | con {name : String} {args : List TypeExpr} :
      NameOf Char.isUpper name → (∀ t ∈ args, Readable t) → Readable (.con name args)
  | var {name : String} : NameOf (fun c => !c.isUpper) name → Readable (.var name)
  | arrow {dom cod : TypeExpr} : Readable dom → Readable cod → Readable (.arrow dom cod)
  | tuple {elems : List TypeExpr} :
      elems.length ≠ 1 → (∀ t ∈ elems, Readable t) → Readable (.tuple elems)
  | record {fields : List (String × TypeExpr)} :
      (∀ f ∈ fields, ∀ c ∈ f.1.toList, nameChar c = true) → (∀ f ∈ fields, Readable f.2) →
      Readable (.record fields)

theorem renderList_eq (ts : List TypeExpr) : renderList ts = ts.map render := by
  induction ts with
  | nil => rfl
  | cons t ts ih => rw [renderList, ih, List.map_cons]

theorem renderFields_eq (fs : List (String × TypeExpr)) :
    renderFields fs = fs.map fun f => f.1 ++ ": " ++ f.2.render := by
  induction fs with
  | nil => rfl
  | cons f fs ih => rw [renderFields, ih, List.map_cons]

theorem renderArgs_eq (ts : List TypeExpr) :
    renderArgs ts = String.join (ts.map fun t => " " ++ parensIf t.isCompound t.render) := by
  induction ts with
  | nil => rfl
  | cons t ts ih => rw [renderArgs, ih, List.map_cons, String.join_cons]

/-- The text of a type begins with a bracket or a name. -/
theorem Readable.begins {t : TypeExpr} (h : t.Readable) : BeginsWith opens t.render := by
  have hopens : ∀ c, nameStart c = true → opens c = true := fun c hc => by simp [opens, hc]
  induction h with
  | con hname _ _ =>
      rw [render]
      exact (hname.begins.mono hopens).append _
  | var hname =>
      rw [render]
      exact hname.begins.mono hopens
  | arrow _ _ ihd _ =>
      rw [render]
      exact ((ihd.parensIf _ rfl).append _).append _
  | tuple _ _ _ =>
      rw [render]
      exact (BeginsWith.append ⟨'(', [], rfl, rfl⟩ _).append _
  | record _ _ _ =>
      rw [render]
      exact (BeginsWith.append ⟨'\x7b', [], rfl, rfl⟩ _).append _

/-! ## Each form -/

/-- Nothing comes next that belongs to the name before, or is one more argument. -/
def TermEnds (rest : List Char) : Prop := Stops nameChar rest ∧ moreArgs rest = false

/-- Nothing comes next that belongs to the type before. -/
def Ends (rest : List Char) : Prop := TermEnds rest ∧ " -> ".toList.isPrefixOf rest = false

theorem separated_parens : Separated ")" Ends :=
  ⟨fun _ => ⟨⟨stops_of_head rfl _, rfl⟩, rfl⟩, fun _ => ⟨⟨stops_of_head rfl _, rfl⟩, rfl⟩, fun _ => rfl⟩

theorem separated_braces : Separated "\x7d" Ends :=
  ⟨separated_parens.comma, fun _ => ⟨⟨stops_of_head rfl _, rfl⟩, rfl⟩, fun _ => rfl⟩

theorem ofWord_con {name : String} (h : NameOf Char.isUpper name) : ofWord name = .con name [] := by
  obtain ⟨c, hc, -, hupper⟩ := h.head
  rw [ofWord, Option.mem_def.mp hc]
  exact if_pos hupper

theorem ofWord_var {name : String} (h : NameOf (fun c => !c.isUpper) name) : ofWord name = .var name := by
  obtain ⟨c, hc, -, hupper⟩ := h.head
  rw [ofWord, Option.mem_def.mp hc]
  exact if_neg (by simpa using hupper)

section Forms

variable {self : Reader TypeExpr} {n : Nat}

theorem atom_word {kind : Char → Bool} {w : String} (hw : NameOf kind w) :
    (forms.atom self n).Takes (Stops nameChar) w (ofWord w) := by
  refine Forms.atom_bare hw.begins rfl ⟨'\x7b', [], rfl, rfl⟩ fun rest hrest => ?_
  exact run_bind_of (run_word hw.chars hrest)

theorem application_con {name : String} {args : List TypeExpr} (hname : NameOf Char.isUpper name)
    (hread : ∀ t ∈ args, t.Readable)
    (hargs : ∀ t ∈ args, (forms.atom self n).Takes (Stops nameChar) (parensIf t.isCompound t.render) t)
    (hn : args.length ≤ n) :
    (forms.application self n).Takes TermEnds (render (.con name args)) (.con name args) := by
  have hatom : (forms.atom self n).Takes (Stops nameChar) name (.con name []) :=
    ofWord_con hname ▸ atom_word hname
  rw [render, renderArgs_eq]
  refine Forms.application_con hatom rfl (fun t ht rest => ?_) hargs hn
  obtain ⟨c, cs, htext, hc⟩ := (hread t ht).begins.parensIf t.isCompound rfl
  rw [String.toList_append, htext]
  exact ⟨hc, stops_of_head rfl _⟩

theorem read_of_application {t : TypeExpr} (h : (forms.application (read n) n).Takes TermEnds t.render t) :
    (read (n + 1)).Takes Ends t.render t := by
  intro rest hrest
  rw [read, run_bind_of (h rest hrest.1)]
  exact run_bind_of (run_accept_of_not hrest.2)

theorem read_arrow {dom cod : TypeExpr}
    (hdom : (forms.application (read n) n).Takes TermEnds (parensIf dom.isArrow dom.render) dom)
    (hcod : (read n).Takes Ends cod.render cod) :
    (read (n + 1)).Takes Ends (render (.arrow dom cod)) (.arrow dom cod) := by
  intro rest hrest
  have hends : TermEnds (" -> ".toList ++ (cod.render.toList ++ rest)) := ⟨stops_of_head rfl _, rfl⟩
  rw [read, render, String.toList_append, String.toList_append, List.append_assoc, List.append_assoc,
    run_bind_of (hdom _ hends), run_bind_of (run_accept " -> " _), if_pos rfl]
  exact run_bind_of (hcod rest hrest)

end Forms

/-! ## All types -/

/-- At this depth the type is read in each of its three positions. -/
structure Taken (n : Nat) (t : TypeExpr) : Prop where
  whole : (read n).Takes Ends t.render t
  term : (forms.application (read n) n).Takes TermEnds (parensIf t.isArrow t.render) t
  atom : (forms.atom (read n) n).Takes (Stops nameChar) (parensIf t.isCompound t.render) t

/-- A type that is written without parentheses in all positions. -/
theorem taken_of_atom {t : TypeExpr} (hflat : t.isCompound = false)
    (hatom : ∀ᶠ n in atTop, (forms.atom (read n) n).Takes (Stops nameChar) t.render t)
    (hterm : ∀ᶠ n in atTop, (forms.application (read n) n).Takes TermEnds t.render t) :
    ∀ᶠ n in atTop, Taken n t := by
  have harrow : t.isArrow = false := by cases t <;> first | rfl | cases hflat
  have hwhole : ∀ᶠ n in atTop, (read n).Takes Ends t.render t :=
    eventually_of_succ (hterm.mono fun n => read_of_application)
  filter_upwards [hwhole, hterm, hatom] with n hwhole hterm hatom
  refine ⟨hwhole, ?_, ?_⟩
  · rwa [harrow]
  · rwa [hflat]

/-- A type that is written without parentheses, and takes no arguments. -/
theorem taken_of_bare {t : TypeExpr} (hflat : t.isCompound = false) (hbare : t.bareName? = none)
    (hatom : ∀ᶠ n in atTop, (forms.atom (read n) n).Takes (Stops nameChar) t.render t) :
    ∀ᶠ n in atTop, Taken n t := by
  refine taken_of_atom hflat hatom ?_
  filter_upwards [hatom] with n hatom
  exact Forms.application_of_atom (hatom.mono fun rest hrest => hrest.1) hbare

/-- A type that is written in parentheses as an argument. -/
theorem taken_of_whole {t : TypeExpr} (h : t.Readable) (hcompound : t.isCompound = true)
    (hwhole : ∀ᶠ n in atTop, (read n).Takes Ends t.render t)
    (hterm : t.isArrow = false → ∀ᶠ n in atTop, (forms.application (read n) n).Takes TermEnds t.render t) :
    ∀ᶠ n in atTop, Taken n t := by
  -- In parentheses the type is a group of one component.
  have hatom : ∀ᶠ n in atTop, (forms.atom (read n) n).Takes (fun _ => True) (parens t.render) t := by
    filter_upwards [hwhole, eventually_ge_atTop 1] with n hwhole hn
    exact Forms.atom_parens separated_parens rfl h.begins hwhole hn
  have hterm : ∀ᶠ n in atTop,
      (forms.application (read n) n).Takes TermEnds (parensIf t.isArrow t.render) t := by
    cases harrow : t.isArrow with
    | false => exact hterm harrow
    | true =>
        filter_upwards [hatom] with n hatom
        refine Forms.application_of_atom (hatom.mono fun _ _ => trivial) ?_
        cases t <;> first | rfl | cases harrow
  filter_upwards [hwhole, hterm, hatom] with n hwhole hterm hatom
  refine ⟨hwhole, hterm, ?_⟩
  rw [hcompound]
  exact hatom.mono fun _ _ => trivial

/-- A type is read in all positions at every depth that is large enough. -/
theorem Readable.eventually_taken {t : TypeExpr} (h : t.Readable) : ∀ᶠ n in atTop, Taken n t := by
  induction h with
  | @con name args hname hargs ih =>
      have hterm : ∀ᶠ n in atTop,
          (forms.application (read n) n).Takes TermEnds (render (.con name args)) (.con name args) := by
        filter_upwards [eventually_forall_mem ih, eventually_ge_atTop args.length] with n hall hn
        exact application_con hname hargs (fun t ht => (hall t ht).atom) hn
      cases args with
      | nil =>
          refine taken_of_atom rfl (.of_forall fun n => ?_) hterm
          rw [render, renderArgs, String.append_empty, ← ofWord_con hname]
          exact atom_word hname
      | cons t args =>
          refine taken_of_whole (.con hname hargs) rfl (eventually_of_succ ?_) fun _ => hterm
          exact hterm.mono fun n => read_of_application
  | @var name hname =>
      refine taken_of_bare rfl rfl (.of_forall fun n => ?_)
      rw [render, ← ofWord_var hname]
      exact atom_word hname
  | @arrow dom cod hdom hcod ihd ihc =>
      refine taken_of_whole (.arrow hdom hcod) rfl (eventually_of_succ ?_) fun h => by cases h
      filter_upwards [ihd, ihc] with n hd hc
      exact read_arrow hd.term hc.whole
  | @tuple elems hlen hread ih =>
      refine taken_of_bare rfl rfl ?_
      filter_upwards [eventually_forall_mem ih, eventually_ge_atTop elems.length] with n hall hn
      have hatom := Forms.atom_group (F := forms) separated_parens rfl (fun t ht => (hread t ht).begins)
        (fun t ht => (hall t ht).whole) hn
      rw [← renderList_eq, group_of_length hlen] at hatom
      exact hatom.mono fun _ _ => trivial
  | @record fields hlabels hread ih =>
      refine taken_of_bare rfl rfl ?_
      filter_upwards [eventually_forall_mem ih, eventually_ge_atTop fields.length] with n hall hn
      rw [render, renderFields_eq]
      exact (Forms.atom_record (F := forms) separated_braces ⟨'\x7b', [], rfl, rfl⟩ ⟨'\x7d', [], rfl, rfl⟩ rfl
        hlabels (fun f hf => (hall f hf).whole) hn).mono fun _ _ => trivial

end TypeExpr

end Polytype
