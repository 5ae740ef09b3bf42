/-
# Polytype.Proofs.Json.Unambiguity — no bytes are a text of two values.

A text is followed by other bytes, of which it is not known beforehand where they begin.  So the statement that carries
the induction is about two texts with something behind each (`Unambiguous`): if the whole is the same, then so are the
values and what stands behind them.  Most texts show by themselves where they end; after a number it takes a byte
that no number goes on with.

The first byte of a text tells the form of its value (`Denotes.exists_cons`), so that two texts that begin alike are by
the same rule.  In arrays and objects the byte after an item is a comma or the closing bracket, and no item begins
with one of these (`Series.unambiguous`).
-/
import Mathlib.Data.List.Basic
import Polytype.Proofs.Json.Grammar

namespace Polytype.Json

/-! ## Bytes of one class -/

/-- The next byte, if there is one, is not in the class. -/
def Leaves (p : UInt8 → Bool) (r : List UInt8) : Prop := ∀ b ∈ r.head?, p b = false

theorem leaves_nil (p : UInt8 → Bool) : Leaves p [] := fun b hb => by cases hb

theorem leaves_cons {p : UInt8 → Bool} {b : UInt8} (hb : p b = false) (r : List UInt8) : Leaves p (b :: r) := by
  rintro c ⟨⟩
  exact hb

/-- Bytes of a class end where the class is left. -/
theorem append_inj_of_class {p : UInt8 → Bool} {w v r s : List UInt8} (hw : ∀ b ∈ w, p b = true)
    (hv : ∀ b ∈ v, p b = true) (hr : Leaves p r) (hs : Leaves p s) (h : w ++ r = v ++ s) : w = v ∧ r = s := by
  induction w generalizing v with
  | nil =>
      cases v with
      | nil => exact ⟨rfl, h⟩
      | cons b v =>
          have hb := hr b (by rw [show r = b :: (v ++ s) from h]; rfl)
          rw [hv b List.mem_cons_self] at hb
          cases hb
  | cons b w ih =>
      cases v with
      | nil =>
          have hb := hs b (by rw [show s = b :: (w ++ r) from h.symm]; rfl)
          rw [hw b List.mem_cons_self] at hb
          cases hb
      | cons c v =>
          obtain ⟨rfl, htail⟩ := List.cons.inj h
          obtain ⟨rfl, hrs⟩ := ih (fun b hb => hw b (List.mem_cons_of_mem _ hb))
            (fun b hb => hv b (List.mem_cons_of_mem _ hb)) htail
          exact ⟨rfl, hrs⟩

/-- The bytes that numbers consist of. -/
def isNumeric (b : UInt8) : Bool :=
  isDigit b || b ∈ ['+'.toUInt8, '-'.toUInt8, '.'.toUInt8, 'e'.toUInt8, 'E'.toUInt8]

theorem Digits.isNumeric {ds : List UInt8} (h : Digits ds) : ∀ b ∈ ds, isNumeric b = true := by
  intro b hb
  rw [Json.isNumeric, h.2 b hb, Bool.true_or]

theorem Number.isNumeric {t : List UInt8} (h : Number t) : ∀ b ∈ t, isNumeric b = true := by
  obtain ⟨hsign, hwhole, hfraction, hexponent⟩ := h
  simp only [List.forall_mem_append]
  refine ⟨?_, ?_, ?_, ?_⟩
  · rcases List.mem_pair.mp hsign with rfl | rfl
    · exact List.forall_mem_nil _
    · exact List.forall_mem_singleton.mpr rfl
  · cases hwhole with
    | zero => exact List.forall_mem_singleton.mpr rfl
    | digits _ hds => exact hds.isNumeric
  · cases hfraction with
    | none => exact List.forall_mem_nil _
    | digits hds => exact List.forall_mem_cons.mpr ⟨rfl, hds.isNumeric⟩
  · cases hexponent with
    | none => exact List.forall_mem_nil _
    | digits he hsign hds =>
        refine List.forall_mem_cons.mpr ⟨?_, List.forall_mem_append.mpr ⟨?_, hds.isNumeric⟩⟩
        · rcases List.mem_pair.mp he with rfl | rfl <;> rfl
        · simp only [List.mem_cons, List.not_mem_nil, or_false] at hsign
          rcases hsign with rfl | rfl | rfl
          · exact List.forall_mem_nil _
          · exact List.forall_mem_singleton.mpr rfl
          · exact List.forall_mem_singleton.mpr rfl

/-! ## The first byte -/

/-- The forms of values that begin differently. -/
inductive Form where
  | null
  | bool (b : Bool)
  | number
  | string
  | array
  | object
  deriving DecidableEq, Repr

/-- The form of a value. -/
def Value.form : Value → Form
  | .null => .null
  | .bool b => .bool b
  | .number _ => .number
  | .string _ => .string
  | .array _ => .array
  | .object _ => .object

/-- The form of a value whose text begins with the byte. -/
def form? (b : UInt8) : Option Form :=
  if isDigit b || b = '-'.toUInt8 then some .number
  else if b = 'n'.toUInt8 then some .null
  else if b = 't'.toUInt8 then some (.bool true)
  else if b = 'f'.toUInt8 then some (.bool false)
  else if b = '"'.toUInt8 then some .string
  else if b = '['.toUInt8 then some .array
  else if b = '\x7b'.toUInt8 then some .object
  else none

theorem form?_of_isBlank {b : UInt8} (h : isBlank b = true) : form? b = none := by
  simp only [isBlank, Bool.or_eq_true, decide_eq_true_eq, or_assoc] at h
  rcases h with rfl | rfl | rfl | rfl <;> rfl

theorem Number.exists_cons {t : List UInt8} (h : Number t) : ∃ b t', t = b :: t' ∧ form? b = some .number := by
  obtain ⟨hsign, hwhole, -, -⟩ := h
  rcases List.mem_pair.mp hsign with rfl | rfl
  · cases hwhole with
    | zero => exact ⟨_, _, rfl, rfl⟩
    | digits _ hds => exact ⟨_, _, rfl, if_pos (by rw [hds.2 _ List.mem_cons_self, Bool.true_or])⟩
  · exact ⟨_, _, rfl, rfl⟩

theorem Denotes.exists_cons {v : Value} {t : List UInt8} (h : Denotes v t) :
    ∃ b t', t = b :: t' ∧ form? b = some v.form := by
  cases h with
  | null => exact ⟨_, _, rfl, rfl⟩
  | true => exact ⟨_, _, rfl, rfl⟩
  | false => exact ⟨_, _, rfl, rfl⟩
  | number h => exact h.exists_cons
  | string h =>
      cases h with
      | marks _ => exact ⟨_, _, rfl, rfl⟩
  | array _ => exact ⟨_, _, rfl, rfl⟩
  | object _ => exact ⟨_, _, rfl, rfl⟩

/-! ## Strings -/

theorem lookup_shortEscapes_code : shortEscapes.lookup 'u'.toUInt8 = none := rfl

/-- What stands between quotation marks ends at the first mark that is not escaped. -/
theorem Chars.unambiguous {ps qs : List Piece} {t u r s : List UInt8} (ht : Chars ps t) (hu : Chars qs u)
    (h : t ++ '"'.toUInt8 :: r = u ++ '"'.toUInt8 :: s) : ps = qs ∧ r = s := by
  induction ht generalizing qs u with
  | nil =>
      cases hu with
      | nil => exact ⟨rfl, (List.cons.inj h).2⟩
      | raw hmark _ _ => exact absurd (List.cons.inj h).1.symm hmark
      | short _ _ => exact absurd (List.cons.inj h).1 (by decide)
      | code _ _ _ => exact absurd (List.cons.inj h).1 (by decide)
  | raw hmark hslash _ ih =>
      cases hu with
      | nil => exact absurd (List.cons.inj h).1 hmark
      | raw _ _ hu =>
          obtain ⟨rfl, hrest⟩ := List.cons.inj h
          obtain ⟨rfl, hrs⟩ := ih hu hrest
          exact ⟨rfl, hrs⟩
      | short _ _ => exact absurd (List.cons.inj h).1 hslash
      | code _ _ _ => exact absurd (List.cons.inj h).1 hslash
  | short hescape _ ih =>
      cases hu with
      | nil => exact absurd (List.cons.inj h).1 (by decide)
      | raw _ hslash _ => exact absurd (List.cons.inj h).1.symm hslash
      | short hescape' hu =>
          obtain ⟨rfl, hrest⟩ := List.cons.inj (List.cons.inj h).2
          obtain ⟨rfl, hrs⟩ := ih hu hrest
          obtain rfl := Option.some.inj (hescape.symm.trans hescape')
          exact ⟨rfl, hrs⟩
      | code _ _ _ =>
          obtain ⟨rfl, -⟩ := List.cons.inj (List.cons.inj h).2
          cases lookup_shortEscapes_code.symm.trans hescape
  | code hlength hnumber _ ih =>
      cases hu with
      | nil => exact absurd (List.cons.inj h).1 (by decide)
      | raw _ hslash _ => exact absurd (List.cons.inj h).1.symm hslash
      | short hescape _ =>
          obtain ⟨rfl, -⟩ := List.cons.inj (List.cons.inj h).2
          cases lookup_shortEscapes_code.symm.trans hescape
      | code hlength' hnumber' hu =>
          simp only [List.cons_append, List.append_assoc, List.cons.injEq, true_and] at h
          obtain ⟨rfl, hrest⟩ := List.append_inj h (hlength.trans hlength'.symm)
          obtain ⟨rfl, hrs⟩ := ih hu hrest
          obtain rfl := Option.some.inj (hnumber.symm.trans hnumber')
          exact ⟨rfl, hrs⟩

/-! ## Punctuation -/

/-- The item, and the bytes behind it, can be told from the whole, if what is behind the item does not begin with a
byte that a number may go on with. -/
def Unambiguous {α : Type} (R : α → List UInt8 → Prop) (a : α) : Prop :=
  ∀ ⦃b : α⦄ ⦃t u r s : List UInt8⦄, R a t → R b u → Leaves isNumeric r → Leaves isNumeric s →
    t ++ r = u ++ s → a = b ∧ r = s

theorem Quoted.unambiguous (str : List UInt8) : Unambiguous Quoted str := by
  intro str' t u r s ht hu _ _ h
  cases ht with
  | marks ht =>
      cases hu with
      | marks hu =>
          rw [List.cons_append, List.cons_append, List.append_assoc, List.append_assoc] at h
          obtain ⟨rfl, hrs⟩ := ht.unambiguous hu (List.cons.inj h).2
          exact ⟨rfl, hrs⟩

section Punctuation

variable {α : Type} {R : α → List UInt8 → Prop}

/-- Every text begins with a byte that a value may begin with. -/
def Begins (R : α → List UInt8 → Prop) : Prop := ∀ a t, R a t → ∃ b t', t = b :: t' ∧ (form? b).isSome = true

theorem Begins.leaves (hR : Begins R) {a : α} {t : List UInt8} (ht : R a t) (r : List UInt8) :
    Leaves isBlank (t ++ r) := by
  obtain ⟨b, t', rfl, hb⟩ := hR a t ht
  refine leaves_cons ?_ _
  rw [Bool.eq_false_iff]
  intro hblank
  rw [form?_of_isBlank hblank] at hb
  cases hb

/-- The next byte is not a blank and not one that a number may go on with. -/
structure Stops (r : List UInt8) : Prop where
  blank : Leaves isBlank r
  numeric : Leaves isNumeric r

theorem isNumeric_of_isBlank {b : UInt8} (h : isBlank b = true) : isNumeric b = false := by
  simp only [isBlank, Bool.or_eq_true, decide_eq_true_eq, or_assoc] at h
  rcases h with rfl | rfl | rfl | rfl <;> rfl

theorem Stops.leaves_append {w r : List UInt8} (hr : Stops r) (hw : Blank w) : Leaves isNumeric (w ++ r) := by
  cases w with
  | nil => exact hr.numeric
  | cons b w => exact leaves_cons (isNumeric_of_isBlank (hw b List.mem_cons_self)) _

/-- An item with blanks around it can be told from what follows. -/
theorem Unambiguous.padded {a b : α} (ha : Unambiguous R a) (hR : Begins R) {w t w' v u v' r s : List UInt8}
    (hw : Blank w) (ht : R a t) (hw' : Blank w') (hv : Blank v) (hu : R b u) (hv' : Blank v') (hr : Stops r)
    (hs : Stops s) (h : w ++ (t ++ (w' ++ r)) = v ++ (u ++ (v' ++ s))) : a = b ∧ r = s := by
  obtain ⟨-, hitems⟩ := append_inj_of_class hw hv (hR.leaves ht _) (hR.leaves hu _) h
  obtain ⟨hab, hends⟩ := ha ht hu (hr.leaves_append hw') (hs.leaves_append hv') hitems
  exact ⟨hab, (append_inj_of_class hw' hv' hr.blank hs.blank hends).2⟩

theorem stops_comma (r : List UInt8) : Stops (','.toUInt8 :: r) := ⟨leaves_cons rfl r, leaves_cons rfl r⟩

theorem stops_colon (r : List UInt8) : Stops (':'.toUInt8 :: r) := ⟨leaves_cons rfl r, leaves_cons rfl r⟩

/-- A byte that closes a series: it stops the last item, and is neither a comma nor the beginning of an item. -/
structure Closing (c : UInt8) : Prop where
  stops : ∀ r, Stops (c :: r)
  ne_comma : c ≠ ','.toUInt8
  form?_eq_none : form? c = none

/-- After blanks, an item is not taken for the end of the series. -/
theorem Begins.ne_closing (hR : Begins R) {c : UInt8} (hc : Closing c) {a : α} {w v t r s : List UInt8}
    (hw : Blank w) (hv : Blank v) (ht : R a t) : w ++ c :: r ≠ v ++ (t ++ s) := by
  intro h
  obtain ⟨-, h⟩ := append_inj_of_class hw hv (hc.stops r).blank (hR.leaves ht s) h
  obtain ⟨b, t', rfl, hb⟩ := hR a t ht
  obtain ⟨rfl, -⟩ := List.cons.inj h
  rw [hc.form?_eq_none] at hb
  cases hb

theorem Series.unambiguous {c : UInt8} (hc : Closing c) (hR : Begins R) {as bs : List α} {t u r s : List UInt8}
    (hitem : ∀ a ∈ as, Unambiguous R a) (ht : Series R as t) (hu : Series R bs u)
    (h : t ++ c :: r = u ++ c :: s) : as = bs ∧ r = s := by
  -- along the first series; the byte after each item, a comma or `c`, tells whether the second one goes on as well
  induction ht generalizing bs u with
  | empty hw =>
      cases hu with
      | empty hv =>
          have hrest := (append_inj_of_class hw hv (hc.stops r).blank (hc.stops s).blank h).2
          exact ⟨rfl, (List.cons.inj hrest).2⟩
      | single hv hu _ =>
          simp only [List.append_assoc] at h
          exact absurd h (hR.ne_closing hc hw hv hu)
      | comma hv hu _ _ =>
          simp only [List.append_assoc] at h
          exact absurd h (hR.ne_closing hc hw hv hu)
  | single hw ht hw' =>
      have ha := hitem _ List.mem_cons_self
      simp only [List.append_assoc] at h
      cases hu with
      | empty hv => exact absurd h.symm (hR.ne_closing hc hv hw ht)
      | single hv hu hv' =>
          simp only [List.append_assoc] at h
          obtain ⟨rfl, hrest⟩ := ha.padded hR hw ht hw' hv hu hv' (hc.stops r) (hc.stops s) h
          exact ⟨rfl, (List.cons.inj hrest).2⟩
      | comma hv hu hv' _ =>
          simp only [List.append_assoc, List.cons_append] at h
          obtain ⟨-, hrest⟩ := ha.padded hR hw ht hw' hv hu hv' (hc.stops r) (stops_comma _) h
          exact absurd (List.cons.inj hrest).1 hc.ne_comma
  | comma hw ht hw' _ ih =>
      obtain ⟨ha, has⟩ := List.forall_mem_cons.mp hitem
      simp only [List.append_assoc, List.cons_append] at h
      cases hu with
      | empty hv => exact absurd h.symm (hR.ne_closing hc hv hw ht)
      | single hv hu hv' =>
          simp only [List.append_assoc] at h
          obtain ⟨-, hrest⟩ := ha.padded hR hw ht hw' hv hu hv' (stops_comma _) (hc.stops s) h
          exact absurd (List.cons.inj hrest).1.symm hc.ne_comma
      | comma hv hu hv' hus =>
          simp only [List.append_assoc, List.cons_append] at h
          obtain ⟨rfl, hrest⟩ := ha.padded hR hw ht hw' hv hu hv' (stops_comma _) (stops_comma _) h
          obtain ⟨hrests, hrs⟩ := ih has hus (List.cons.inj hrest).2
          exact ⟨by rw [hrests], hrs⟩

theorem Member.unambiguous (hR : Begins R) {m : List UInt8 × α} (hm : Unambiguous R m.2) :
    Unambiguous (Member R) m := by
  intro m' t u r s ht hu hr hs h
  cases ht with
  | colon hname hw hw' ht =>
      cases hu with
      | colon hname' hv hv' hu =>
          simp only [List.append_assoc, List.cons_append] at h
          obtain ⟨rfl, hafter⟩ := Quoted.unambiguous _ hname hname' ((stops_colon _).leaves_append hw)
            ((stops_colon _).leaves_append hv) h
          have hcolon := (append_inj_of_class hw hv (stops_colon _).blank (stops_colon _).blank hafter).2
          have hvalues := append_inj_of_class hw' hv' (hR.leaves ht r) (hR.leaves hu s) (List.cons.inj hcolon).2
          obtain ⟨hvalue, hrs⟩ := hm ht hu hr hs hvalues.2
          exact ⟨Prod.ext rfl hvalue, hrs⟩

theorem begins_member : Begins (Member R) := by
  rintro _ _ ⟨⟨_⟩, _, _, _⟩
  exact ⟨_, _, rfl, rfl⟩

end Punctuation

/-! ## Values -/

theorem begins_denotes : Begins Denotes := by
  intro v t h
  obtain ⟨b, t', rfl, hb⟩ := h.exists_cons
  exact ⟨b, t', rfl, by rw [hb]; rfl⟩

theorem closing_bracket : Closing ']'.toUInt8 :=
  ⟨fun r => ⟨leaves_cons rfl r, leaves_cons rfl r⟩, by decide, rfl⟩

theorem closing_brace : Closing '\x7d'.toUInt8 :=
  ⟨fun r => ⟨leaves_cons rfl r, leaves_cons rfl r⟩, by decide, rfl⟩

theorem Denotes.form_eq {v v' : Value} {t u r s : List UInt8} (ht : Denotes v t) (hu : Denotes v' u)
    (h : t ++ r = u ++ s) : v.form = v'.form := by
  obtain ⟨b, t', rfl, hb⟩ := ht.exists_cons
  obtain ⟨c, u', rfl, hc⟩ := hu.exists_cons
  obtain ⟨rfl, -⟩ := List.cons.inj h
  exact Option.some.inj (hb.symm.trans hc)

/-- Only values of the same form need to be compared. -/
theorem Unambiguous.of_form {v : Value}
    (hv : ∀ ⦃v' : Value⦄ ⦃t u r s : List UInt8⦄, v.form = v'.form → Denotes v t → Denotes v' u →
      Leaves isNumeric r → Leaves isNumeric s → t ++ r = u ++ s → v = v' ∧ r = s) : Unambiguous Denotes v :=
  fun _ _ _ _ _ ht hu hr hs h => hv (ht.form_eq hu h) ht hu hr hs h

theorem Denotes.unambiguous (v : Value) : Unambiguous Denotes v := by
  induction v with
  | null =>
      refine .of_form fun v' t u r s hform ht hu _ _ h => ?_
      cases ht
      cases hu <;> cases hform
      exact ⟨rfl, List.append_cancel_left h⟩
  | bool b =>
      refine .of_form fun v' t u r s hform ht hu _ _ h => ?_
      cases ht <;> cases hu <;> cases hform
      · exact ⟨rfl, List.append_cancel_left h⟩
      · exact ⟨rfl, List.append_cancel_left h⟩
  | number text =>
      refine .of_form fun v' t u r s hform ht hu hr hs h => ?_
      cases ht with
      | number ht =>
          cases hu with
          | number hu =>
              obtain ⟨rfl, hrs⟩ := append_inj_of_class ht.isNumeric hu.isNumeric hr hs h
              exact ⟨rfl, hrs⟩
          | _ => cases hform
  | string str =>
      refine .of_form fun v' t u r s hform ht hu hr hs h => ?_
      cases ht with
      | string ht =>
          cases hu with
          | string hu =>
              obtain ⟨rfl, hrs⟩ := Quoted.unambiguous _ ht hu hr hs h
              exact ⟨rfl, hrs⟩
          | _ => cases hform
  | array vs ih =>
      refine .of_form fun v' t u r s hform ht hu _ _ h => ?_
      cases ht with
      | array ht =>
          cases hu with
          | array hu =>
              simp only [List.cons_append, List.append_assoc, List.cons.injEq, true_and] at h
              obtain ⟨rfl, hrs⟩ := ht.unambiguous closing_bracket begins_denotes ih hu h
              exact ⟨rfl, hrs⟩
          | _ => cases hform
  | object ms ih =>
      refine .of_form fun v' t u r s hform ht hu _ _ h => ?_
      cases ht with
      | object ht =>
          cases hu with
          | object hu =>
              simp only [List.cons_append, List.append_assoc, List.cons.injEq, true_and] at h
              have hmembers := fun m hm => Member.unambiguous begins_denotes (ih m hm)
              obtain ⟨rfl, hrs⟩ := ht.unambiguous closing_brace begins_member hmembers hu h
              exact ⟨rfl, hrs⟩
          | _ => cases hform

/-- No bytes are a text of two values. -/
theorem Text.unique {v v' : Value} {t u : List UInt8} (ht : Text v t) (hu : Text v' u) (h : t = u) : v = v' := by
  have hend : Stops [] := ⟨leaves_nil _, leaves_nil _⟩
  cases ht with
  | blanks hw ht hw' =>
      cases hu with
      | blanks hv hu hv' =>
          refine ((Denotes.unambiguous v).padded begins_denotes hw ht hw' hv hu hv' hend hend ?_).1
          rw [List.append_nil, List.append_nil]
          exact h

end Polytype.Json
