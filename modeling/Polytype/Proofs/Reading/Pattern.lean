/-
# Polytype.Proofs.Reading.Pattern — patterns are read back.

Patterns are written like types, with constructors for the named types and without arrows, so the bracketed forms
are read by the same readers.  A pattern stands by itself or as an argument of a constructor; it is taken from its
text in both positions (`Pattern.eventually_taken`).
-/
import Polytype.Proofs.Reading.Lexical

namespace Polytype

open Filter Reader Text

namespace Pattern

/-! ## Valid patterns -/

mutual
/-- Whether the names of the pattern are valid, and no tuple has one component. -/
def lexical : Pattern → Bool
  | .wildcard => true
  | .var name => Name.isVariable name
  | .int _ => true
  | .bool _ => true
  | .con name args => Name.isCapitalized name && lexicalList args
  | .tuple elems => elems.length != 1 && lexicalList elems
  | .record fields => lexicalFields fields
/-- Whether all patterns of a list are valid. -/
def lexicalList : List Pattern → Bool
  | [] => true
  | p :: ps => p.lexical && lexicalList ps
/-- Whether all labelled patterns are valid, and so are the labels. -/
def lexicalFields : List (String × Pattern) → Bool
  | [] => true
  | (l, p) :: fs => Name.isVariable l && p.lexical && lexicalFields fs
end

theorem lexicalList_iff {ps : List Pattern} : lexicalList ps = true ↔ ∀ p ∈ ps, p.lexical = true := by
  induction ps with
  | nil => simp [lexicalList]
  | cons p ps ih => rw [lexicalList, Bool.and_eq_true, ih, List.forall_mem_cons]

theorem lexicalFields_iff {fs : List (String × Pattern)} : lexicalFields fs = true ↔
    ∀ f ∈ fs, Name.isVariable f.1 = true ∧ f.2.lexical = true := by
  induction fs with
  | nil => simp [lexicalFields]
  | cons f fs ih => rw [lexicalFields, Bool.and_eq_true, Bool.and_eq_true, ih, List.forall_mem_cons]

theorem renderList_eq (ps : List Pattern) : renderList ps = ps.map render := by
  induction ps with
  | nil => rfl
  | cons p ps ih => rw [renderList, ih, List.map_cons]

theorem renderFields_eq (fs : List (String × Pattern)) :
    renderFields fs = fs.map fun f => f.1 ++ ": " ++ f.2.render := by
  induction fs with
  | nil => rfl
  | cons f fs ih => rw [renderFields, ih, List.map_cons]

theorem renderArgs_eq (ps : List Pattern) :
    renderArgs ps = String.join (ps.map fun p => " " ++ parensIf p.isCompound p.render) := by
  induction ps with
  | nil => rfl
  | cons p ps ih => rw [renderArgs, ih, List.map_cons, String.join_cons]

/-- The text of a pattern begins a pattern. -/
theorem opens_render {p : Pattern} (h : p.lexical = true) : Opens p.render := by
  cases p with
  | wildcard => exact fun rest => rfl
  | var name => exact (spells_variable h).opens
  | int v => exact (spells_int v).opens
  | bool b => exact (spells_bool b).opens
  | con name args =>
      rw [lexical, Bool.and_eq_true] at h
      exact (spells_capitalized h.1).opens.append _
  | tuple elems => exact (Opens.append (fun rest => rfl) _).append _
  | record fields => exact (Opens.append (fun rest => rfl) _).append _

/-! ## Readers of patterns -/

/-- The pattern that is a single word. -/
def ofToken : Token → Pattern
  | .int v => .int v
  | .bool b => .bool b
  | .capitalized w => .con w []
  | .name w => if w = "_" then .wildcard else .var w

/-- The name of a constructor without arguments. -/
def bareName? : Pattern → Option String
  | .con name [] => some name
  | _ => none

/-- How patterns are written. -/
def forms : Forms Pattern where
  con := .con
  tuple := .tuple
  record := .record
  left := "\x7b "
  right := " \x7d"
  labelChar := Name.wordChar
  bare := do return ofToken (← token)
  name? := bareName?
  more := opensNext

/-- Reads a pattern that is nested to at most the given depth. -/
def read : Nat → Reader Pattern
  | 0 => failure
  | n + 1 => forms.application (read n) n

/-! ## All patterns -/

/-- Nothing comes next that belongs to the pattern before. -/
def Ends (rest : List Char) : Prop := Stops Name.wordChar rest ∧ opensNext rest = false

theorem separated_parens : Separated ")" Ends :=
  ⟨fun _ => ⟨stops_of_head rfl _, rfl⟩, fun _ => ⟨stops_of_head rfl _, rfl⟩, fun _ => rfl⟩

theorem separated_braces : Separated " \x7d" Ends :=
  ⟨separated_parens.comma, fun _ => ⟨stops_of_head rfl _, rfl⟩, fun _ => rfl⟩

/-- At this depth the pattern is read in both of its positions. -/
structure Taken (n : Nat) (p : Pattern) : Prop where
  whole : (read n).Takes Ends p.render p
  atom : (forms.atom (read n) n).Takes (Stops Name.wordChar) (parensIf p.isCompound p.render) p

theorem atom_of_spells {s : String} {t : Token} (h : Spells s t) {self : Reader Pattern} {n : Nat} :
    (forms.atom self n).Takes (Stops Name.wordChar) s (ofToken t) := by
  refine Forms.atom_bare h.begins rfl ⟨'\x7b', [' '], rfl, rfl⟩ fun rest hrest => ?_
  exact run_bind_of (h.taken rest hrest)

/-- A pattern that takes no arguments. -/
theorem taken_of_atom {p : Pattern} (hflat : p.isCompound = false) (hbare : p.bareName? = none)
    (hatom : ∀ᶠ n in atTop, (forms.atom (read n) n).Takes (Stops Name.wordChar) p.render p) :
    ∀ᶠ n in atTop, Taken n p := by
  have hwhole : ∀ᶠ n in atTop, (read n).Takes Ends p.render p := by
    refine eventually_of_succ (hatom.mono fun n hatom => ?_)
    exact Forms.application_of_atom (hatom.mono fun rest hrest => hrest.1) hbare
  filter_upwards [hwhole, hatom] with n hwhole hatom
  exact ⟨hwhole, by rwa [hflat]⟩

theorem taken_of_spells {p : Pattern} {t : Token} (hp : ofToken t = p) (hflat : p.isCompound = false)
    (hbare : p.bareName? = none) (h : Spells p.render t) : ∀ᶠ n in atTop, Taken n p := by
  subst hp
  exact taken_of_atom hflat hbare (.of_forall fun _ => atom_of_spells h)

theorem application_con {name : String} {args : List Pattern} {n : Nat} (hname : Name.isCapitalized name = true)
    (hlexical : ∀ p ∈ args, p.lexical = true) (hargs : ∀ p ∈ args, Taken n p) (hn : args.length ≤ n) :
    (read (n + 1)).Takes Ends (render (.con name args)) (.con name args) := by
  rw [render, renderArgs_eq]
  refine Forms.application_con (atom_of_spells (spells_capitalized hname)) rfl (fun p hp rest => ?_)
    (fun p hp => (hargs p hp).atom) hn
  have hopens : Opens (parensIf p.isCompound p.render) := by
    cases p.isCompound with
    | false => exact opens_render (hlexical p hp)
    | true => exact (Opens.append (fun rest => rfl) _).append _
  rw [String.toList_append, List.append_assoc]
  exact ⟨hopens rest, stops_of_head rfl _⟩

/-- A pattern is read in both positions at every depth that is large enough. -/
theorem eventually_taken {p : Pattern} (h : p.lexical = true) : ∀ᶠ n in atTop, Taken n p := by
  induction p with
  | wildcard =>
      have hword : Name.isIdentifier Name.variableStart "_" = true := rfl
      exact taken_of_spells rfl rfl rfl (spells_word hword)
  | var name =>
      have hvar : ofToken (.name name) = .var name := if_neg (Name.ne_of_isVariable h (by decide))
      exact taken_of_spells hvar rfl rfl (spells_variable h)
  | int v => exact taken_of_spells rfl rfl rfl (spells_int v)
  | bool b => exact taken_of_spells rfl rfl rfl (spells_bool b)
  | con name args ih =>
      rw [lexical, Bool.and_eq_true, lexicalList_iff] at h
      have hargs : ∀ᶠ n in atTop, ∀ p ∈ args, Taken n p := eventually_forall_mem fun p hp => ih p hp (h.2 p hp)
      have hwhole : ∀ᶠ n in atTop, (read n).Takes Ends (render (.con name args)) (.con name args) := by
        refine eventually_of_succ ?_
        filter_upwards [hargs, eventually_ge_atTop args.length] with n hargs hn
        exact application_con h.1 h.2 hargs hn
      filter_upwards [hwhole, eventually_ge_atTop 1] with n hwhole hn
      refine ⟨hwhole, ?_⟩
      cases args with
      | nil =>
          rw [isCompound, parensIf, if_neg (by simp), render, renderArgs, String.append_empty]
          exact atom_of_spells (spells_capitalized h.1)
      | cons p args =>
          have hbegins : BeginsWith openChar (render (.con name (p :: args))) := by
            rw [render]
            exact ((spells_capitalized h.1).opens.append _).begins
          rw [isCompound, parensIf, if_pos (by simp)]
          exact (Forms.atom_parens separated_parens rfl hbegins hwhole hn).mono fun _ _ => trivial
  | tuple elems ih =>
      rw [lexical, Bool.and_eq_true, bne_iff_ne, lexicalList_iff] at h
      refine taken_of_atom rfl rfl ?_
      filter_upwards [eventually_forall_mem fun p hp => ih p hp (h.2 p hp), eventually_ge_atTop elems.length]
        with n hall hn
      have hatom := Forms.atom_group (F := forms) separated_parens rfl
        (fun p hp => (opens_render (h.2 p hp)).begins) (fun p hp => (hall p hp).whole) hn
      rw [← renderList_eq, group_of_length h.1] at hatom
      exact hatom.mono fun _ _ => trivial
  | record fields ih =>
      rw [lexical, lexicalFields_iff] at h
      refine taken_of_atom rfl rfl ?_
      filter_upwards [eventually_forall_mem fun f hf => ih f hf (h f hf).2, eventually_ge_atTop fields.length]
        with n hall hn
      rw [render, renderFields_eq]
      exact (Forms.atom_record (F := forms) separated_braces ⟨'\x7b', [' '], rfl, rfl⟩ ⟨' ', ['\x7d'], rfl, rfl⟩
        rfl (fun f hf c hc => Name.wordChar_of_mem (h f hf).1 hc) (fun f hf => (hall f hf).whole) hn).mono
        fun _ _ => trivial

end Pattern

end Polytype
