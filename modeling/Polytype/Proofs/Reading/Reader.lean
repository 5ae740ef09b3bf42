/-
# Polytype.Proofs.Reading.Reader — taking printed texts apart again.

A reader takes a value from the front of a text and leaves the rest.  What has been printed is unambiguous when
some reader gets it back whatever follows, as long as what follows cannot be mistaken for more of it.

The readers of this file are the parts that all printed forms share: fixed texts (`expect`, `accept`), words
(`word`), components between brackets with commas between them (`enclosed`) and arguments in a row (`many`).  For
each there is one lemma that says what it takes from a text that was printed.  Types and patterns are written in
the same bracketed forms, so these are read by one family of readers (`Forms`).
-/
import Mathlib.Data.List.Basic
import Polytype.Text

namespace Polytype

/-! ## Identifiers -/

namespace Name

/-- The characters of identifiers. -/
def wordChar (c : Char) : Bool := c.isAlphanum || c == '_'

/-- The characters that identifiers begin with. -/
def wordStart (c : Char) : Bool := c.isAlpha || c == '_'

/-- Whether the name is an identifier that begins with a character of the class. -/
def isIdentifier (start : Char → Bool) (name : String) : Bool :=
  name.toList.head?.any start && name.toList.all wordChar

theorem isIdentifier_iff {start : Char → Bool} {name : String} :
    isIdentifier start name = true ↔
      (∃ c cs, name.toList = c :: cs ∧ start c = true) ∧ ∀ c ∈ name.toList, wordChar c = true := by
  rw [isIdentifier, Bool.and_eq_true, List.all_eq_true]
  cases name.toList with
  | nil => simp
  | cons c cs => simp

theorem wordChar_of_isDigit {c : Char} (h : c.isDigit = true) : wordChar c = true := by
  simp [wordChar, Char.isAlphanum, h]

end Name

theorem isDigit_of_mem_repr {n : Nat} {c : Char} (h : c ∈ n.repr.toList) : c.isDigit = true := by
  rw [Nat.repr_eq_ofList_toDigits, String.toList_ofList] at h
  exact Nat.isDigit_of_mem_toDigits (by decide) (by decide) h

theorem isDigit_of_mem_repr_int {v : Int} {c : Char} (h : c ∈ v.repr.toList) : c = '-' ∨ c.isDigit = true := by
  rw [Int.repr_eq_if] at h
  split at h
  · exact Or.inr (isDigit_of_mem_repr h)
  · rw [String.toList_append, List.mem_append] at h
    exact h.imp List.mem_singleton.mp isDigit_of_mem_repr

/-! ## Readers -/

/-- Takes a value from the front of a text and leaves the rest. -/
abbrev Reader := StateT (List Char) Option

namespace Reader

variable {α β : Type}

/-- Takes the given text, and nothing else. -/
def expect (s : String) : Reader Unit := fun cs => (s.toList.isPrefixOf? cs).map fun rest => ((), rest)

/-- Takes the given text if it comes next, and tells whether it did. -/
def accept (s : String) : Reader Bool := fun cs =>
  match s.toList.isPrefixOf? cs with
  | some rest => some (true, rest)
  | none => some (false, cs)

/-- Takes characters of a class for as long as there are any. -/
def word (p : Char → Bool) : Reader String := fun cs =>
  some (String.ofList (cs.takeWhile p), cs.dropWhile p)

/-- Takes one character. -/
def char : Reader Char := fun cs =>
  match cs with
  | c :: rest => some (c, rest)
  | [] => none

/-- Looks at what comes next, without taking it. -/
def ahead (p : List Char → Bool) : Reader Bool := fun cs => some (p cs, cs)

/-- At least one item, with a comma and a blank between them, up to a closing text. -/
def series (close : String) (item : Reader α) : Nat → Reader (List α)
  | 0 => failure
  | n + 1 => do
    let a ← item
    if ← accept ", " then
      let as ← series close item n
      return a :: as
    else
      expect close
      return [a]

/-- Any number of items up to a closing text. -/
def enclosed (close : String) (item : Reader α) (n : Nat) : Reader (List α) := do
  if ← accept close then return [] else series close item n

/-- Items for as long as another one comes next. -/
def many (more : List Char → Bool) (item : Reader α) : Nat → Reader (List α)
  | 0 => return []
  | n + 1 => do
    if ← ahead more then
      let a ← item
      let as ← many more item n
      return a :: as
    else
      return []

/-- An item after a label and a colon. -/
def labelled (p : Char → Bool) (item : Reader α) : Reader (String × α) := do
  let l ← word p
  expect ": "
  let a ← item
  return (l, a)

/-! ## What they take -/

/-- A first step that gives a result is followed by the others on the rest. -/
theorem run_bind_of {x : Reader α} {f : α → Reader β} {cs rest : List Char} {a : α}
    (h : x.run cs = some (a, rest)) : (x >>= f).run cs = (f a).run rest := by
  rw [StateT.run_bind, h]
  rfl

theorem isPrefixOf?_append (p rest : List Char) : p.isPrefixOf? (p ++ rest) = some rest :=
  List.isPrefixOf?_eq_some_iff_append_eq.mpr rfl

theorem run_expect (s : String) (rest : List Char) : (expect s).run (s.toList ++ rest) = some ((), rest) := by
  rw [StateT.run, expect, isPrefixOf?_append]
  rfl

theorem run_accept (s : String) (rest : List Char) :
    (accept s).run (s.toList ++ rest) = some (true, rest) := by
  rw [StateT.run, accept, isPrefixOf?_append]

theorem run_accept_of_not {s : String} {cs : List Char} (h : s.toList.isPrefixOf cs = false) :
    (accept s).run cs = some (false, cs) := by
  rw [← List.isSome_isPrefixOf?_eq_isPrefixOf] at h
  rw [StateT.run, accept]
  cases hp : s.toList.isPrefixOf? cs with
  | none => rfl
  | some rest =>
      rw [hp] at h
      cases h

/-- Nothing of the class comes next. -/
def Stops (p : Char → Bool) (cs : List Char) : Prop := ∀ c ∈ cs.head?, p c = false

theorem stops_of_head {p : Char → Bool} {c : Char} (hc : p c = false) (cs : List Char) : Stops p (c :: cs) := by
  rintro d ⟨⟩
  exact hc

theorem run_word {p : Char → Bool} {w : String} {rest : List Char} (hw : ∀ c ∈ w.toList, p c = true)
    (hrest : Stops p rest) : (word p).run (w.toList ++ rest) = some (w, rest) := by
  have hnone : rest.takeWhile p = [] ∧ rest.dropWhile p = rest := by
    cases rest with
    | nil => exact ⟨rfl, rfl⟩
    | cons c cs =>
        have hc : p c = false := hrest c rfl
        simp [hc]
  rw [StateT.run, word, List.takeWhile_append_of_pos hw, List.dropWhile_append_of_pos hw, hnone.1, hnone.2,
    List.append_nil, String.ofList_toList]

/-- The text begins with a character of the class. -/
def BeginsWith (p : Char → Bool) (s : String) : Prop := ∃ c cs, s.toList = c :: cs ∧ p c = true

namespace BeginsWith

variable {p q : Char → Bool} {s : String}

theorem append (h : BeginsWith p s) (t : String) : BeginsWith p (s ++ t) := by
  obtain ⟨c, cs, hs, hc⟩ := h
  exact ⟨c, cs ++ t.toList, by rw [String.toList_append, hs, List.cons_append], hc⟩

theorem mono (h : BeginsWith p s) (hpq : ∀ c, p c = true → q c = true) : BeginsWith q s := by
  obtain ⟨c, cs, hs, hc⟩ := h
  exact ⟨c, cs, hs, hpq c hc⟩

theorem parensIf (b : Bool) (h : BeginsWith p s) (hp : p '(' = true) : BeginsWith p (Text.parensIf b s) := by
  cases b with
  | false => exact h
  | true => exact ⟨'(', s.toList ++ [')'], by simp [Text.parensIf, Text.parens], hp⟩

/-- A text that begins otherwise does not come next. -/
theorem isPrefixOf_eq_false (h : BeginsWith p s) {t : String} (ht : BeginsWith (fun c => !p c) t)
    (rest : List Char) : t.toList.isPrefixOf (s.toList ++ rest) = false := by
  obtain ⟨c, cs, hs, hc⟩ := h
  obtain ⟨d, ds, ht, hd⟩ := ht
  have hne : d ≠ c := by
    rintro rfl
    simp [hc] at hd
  simp [hs, ht, List.isPrefixOf, hne]

theorem run_accept (h : BeginsWith p s) {t : String} (ht : BeginsWith (fun c => !p c) t)
    (rest : List Char) : (accept t).run (s.toList ++ rest) = some (false, s.toList ++ rest) :=
  run_accept_of_not (h.isPrefixOf_eq_false ht rest)

/-- A labelled item begins with a character of its label, or with the colon. -/
theorem label {l : String} (hl : ∀ c ∈ l.toList, p c = true) (t : String) :
    BeginsWith (fun c => p c || c == ':') (l ++ ": " ++ t) := by
  cases hcs : l.toList with
  | nil =>
      rw [String.toList_eq_nil_iff.mp hcs]
      exact append ⟨':', [' '], rfl, Bool.or_true _⟩ t
  | cons c cs => exact (append ⟨c, cs, hcs, by simp [hl c (hcs ▸ List.mem_cons_self)]⟩ _).append t

end BeginsWith

/-- The reader takes the value from its text, whatever follows, if the text ends there. -/
def Takes (x : Reader α) (Ends : List Char → Prop) (text : String) (a : α) : Prop :=
  ∀ rest, Ends rest → x.run (text.toList ++ rest) = some (a, rest)

theorem Takes.mono {x : Reader α} {P Q : List Char → Prop} {text : String} {a : α} (h : x.Takes P text a)
    (hQ : ∀ rest, Q rest → P rest) : x.Takes Q text a := fun rest hrest => h rest (hQ rest hrest)

/-- No text is that of two values. -/
theorem Takes.unique {x : Reader α} {Ends : List Char → Prop} {text : String} {a b : α}
    (ha : x.Takes Ends text a) (hb : x.Takes Ends text b) (hend : Ends []) : a = b :=
  congrArg Prod.fst (Option.some.inj ((ha [] hend).symm.trans (hb [] hend)))

section Items

variable {item : Reader α} {text : α → String} {xs : List α} {Ends : List Char → Prop}

/-- What may follow an item between brackets. -/
structure Separated (close : String) (Ends : List Char → Prop) : Prop where
  comma : ∀ rest, Ends (", ".toList ++ rest)
  closed : ∀ rest, Ends (close.toList ++ rest)
  apart : ∀ rest, ", ".toList.isPrefixOf (close.toList ++ rest) = false

/-- Items that are read one by one are read as a series. -/
theorem run_series {close : String} (hsep : Separated close Ends) (hne : xs ≠ [])
    (hitem : ∀ a ∈ xs, item.Takes Ends (text a) a) {n : Nat} (hn : xs.length ≤ n) (rest : List Char) :
    (series close item n).run ((Text.commas (xs.map text)).toList ++ (close.toList ++ rest)) =
      some (xs, rest) := by
  induction xs generalizing n with
  | nil => exact absurd rfl hne
  | cons a xs ih =>
      obtain ⟨n, rfl⟩ := Nat.exists_eq_add_one_of_ne_zero (Nat.ne_zero_of_lt hn)
      have ha := hitem a List.mem_cons_self
      rw [series]
      cases xs with
      | nil =>
          rw [List.map_cons, List.map_nil, Text.commas_singleton, run_bind_of (ha _ (hsep.closed rest)),
            run_bind_of (run_accept_of_not (hsep.apart rest))]
          exact run_bind_of (run_expect close rest)
      | cons b xs =>
          have hxs := ih (List.cons_ne_nil b xs) (fun c hc => hitem c (List.mem_cons_of_mem a hc))
            (Nat.le_of_succ_le_succ hn)
          rw [List.map_cons, List.map_cons, Text.commas_cons_cons, String.toList_append, String.toList_append,
            List.append_assoc, List.append_assoc, run_bind_of (ha _ (hsep.comma _)),
            run_bind_of (run_accept ", " _)]
          exact run_bind_of hxs

/-- Items that are read one by one are read between brackets, where none begins like the closing one. -/
theorem run_enclosed {close : String} (hsep : Separated close Ends)
    (hopen : ∀ a ∈ xs, ∀ rest, close.toList.isPrefixOf ((text a).toList ++ rest) = false)
    (hitem : ∀ a ∈ xs, item.Takes Ends (text a) a) {n : Nat} (hn : xs.length ≤ n) (rest : List Char) :
    (enclosed close item n).run ((Text.commas (xs.map text)).toList ++ (close.toList ++ rest)) =
      some (xs, rest) := by
  rw [enclosed]
  cases xs with
  | nil => exact run_bind_of (run_accept close rest)
  | cons a xs =>
      have hfirst : close.toList.isPrefixOf
          ((Text.commas ((a :: xs).map text)).toList ++ (close.toList ++ rest)) = false := by
        cases xs with
        | nil => exact hopen a List.mem_cons_self _
        | cons b xs =>
            rw [List.map_cons, List.map_cons, Text.commas_cons_cons, String.toList_append,
              String.toList_append, List.append_assoc, List.append_assoc]
            exact hopen a List.mem_cons_self _
      rw [run_bind_of (run_accept_of_not hfirst)]
      exact run_series hsep (List.cons_ne_nil a xs) hitem hn rest

/-- Items that are read one by one are read in a row, up to where no more of them comes next.  What may follow an
item can depend on the item, as long as the next one may. -/
theorem run_many {more : List Char → Bool} {EndsOf : α → List Char → Prop}
    (hmore : ∀ a ∈ xs, ∀ rest, more ((text a).toList ++ rest) = true)
    (hnext : ∀ a ∈ xs.dropLast, ∀ b ∈ xs, ∀ rest, EndsOf a ((text b).toList ++ rest))
    (hitem : ∀ a ∈ xs, item.Takes (EndsOf a) (text a) a) {n : Nat} (hn : xs.length ≤ n)
    {rest : List Char} (hrest : ∀ a ∈ xs, EndsOf a rest) (hend : more rest = false) :
    (many more item n).run ((String.join (xs.map text)).toList ++ rest) = some (xs, rest) := by
  induction xs generalizing n with
  | nil =>
      cases n with
      | zero => rfl
      | succ n =>
          have hahead : (ahead more).run rest = some (false, rest) := by rw [StateT.run, ahead, hend]
          exact run_bind_of hahead
  | cons a xs ih =>
      obtain ⟨n, rfl⟩ := Nat.exists_eq_add_one_of_ne_zero (Nat.ne_zero_of_lt hn)
      have hdrop : ∀ b ∈ xs.dropLast, b ∈ (a :: xs).dropLast := by
        intro b hb
        rw [List.dropLast_cons_of_ne_nil (List.ne_nil_of_mem (List.dropLast_subset xs hb))]
        exact List.mem_cons_of_mem a hb
      have hxs := ih (fun b hb => hmore b (List.mem_cons_of_mem a hb))
        (fun b hb c hc => hnext b (hdrop b hb) c (List.mem_cons_of_mem a hc))
        (fun b hb => hitem b (List.mem_cons_of_mem a hb)) (Nat.le_of_succ_le_succ hn)
        (fun b hb => hrest b (List.mem_cons_of_mem a hb))
      have hfollows : EndsOf a ((String.join (xs.map text)).toList ++ rest) := by
        cases xs with
        | nil => exact hrest a List.mem_cons_self
        | cons b xs =>
            rw [List.map_cons, String.join_cons, String.toList_append, List.append_assoc]
            exact hnext a List.mem_cons_self b (List.mem_cons_of_mem a List.mem_cons_self) _
      have hahead : ∀ cs, (ahead more).run ((text a).toList ++ cs) = some (true, (text a).toList ++ cs) := by
        intro cs
        rw [StateT.run, ahead, hmore a List.mem_cons_self cs]
      rw [many, List.map_cons, String.join_cons, String.toList_append, List.append_assoc,
        run_bind_of (hahead _), if_pos rfl, run_bind_of (hitem a List.mem_cons_self _ hfollows)]
      exact run_bind_of hxs

theorem labelled_takes {p : Char → Bool} {l : String} {a : α} (hl : ∀ c ∈ l.toList, p c = true)
    (hcolon : p ':' = false) (ha : item.Takes Ends (text a) a) :
    (labelled p item).Takes Ends (l ++ ": " ++ text a) (l, a) := by
  intro rest hrest
  have hstops : Stops p (": ".toList ++ ((text a).toList ++ rest)) := stops_of_head hcolon _
  rw [labelled, String.toList_append, String.toList_append, List.append_assoc, List.append_assoc,
    run_bind_of (run_word hl hstops), run_bind_of (run_expect ": " _)]
  exact run_bind_of (ha rest hrest)

/-- Items that are read one by one are read between braces, each after its label. -/
theorem run_fields {close : String} {p : Char → Bool} {fields : List (String × α)} (hsep : Separated close Ends)
    (hclose : BeginsWith (fun c => !(p c || c == ':')) close) (hcolon : p ':' = false)
    (hlabels : ∀ f ∈ fields, ∀ c ∈ f.1.toList, p c = true)
    (hitem : ∀ f ∈ fields, item.Takes Ends (text f.2) f.2) {n : Nat} (hn : fields.length ≤ n) (rest : List Char) :
    (enclosed close (labelled p item) n).run
      ((Text.commas (fields.map fun f => f.1 ++ ": " ++ text f.2)).toList ++ (close.toList ++ rest)) =
        some (fields, rest) := by
  refine run_enclosed hsep (fun f hf rest => ?_) (fun f hf => ?_) hn rest
  · exact (BeginsWith.label (hlabels f hf) _).isPrefixOf_eq_false hclose rest
  · exact labelled_takes (hlabels f hf) hcolon (hitem f hf)

end Items

/-! ## Bracketed forms -/

/-- The forms in which values of a kind are written: named ones with their arguments in a row, tuples in
parentheses and records in braces. -/
structure Forms (α : Type) where
  con : String → List α → α
  tuple : List α → α
  record : List (String × α) → α
  /-- The opening brace of a record. -/
  left : String
  /-- The closing brace of a record. -/
  right : String
  labelChar : Char → Bool
  /-- Takes what is written without brackets and arguments. -/
  bare : Reader α
  /-- The name of a value that takes the arguments that follow. -/
  name? : α → Option String
  /-- Whether another argument comes next. -/
  more : List Char → Bool

/-- What stands in parentheses: a tuple, or one value that would be misread without them. -/
def group (tuple : List α → α) : List α → α
  | [a] => a
  | as => tuple as

theorem group_of_length {tuple : List α → α} {as : List α} (h : as.length ≠ 1) : group tuple as = tuple as := by
  rw [group]
  rintro a rfl
  exact h rfl

namespace Forms

/-- Takes a value that is in brackets or needs none as an argument. -/
def atom (F : Forms α) (self : Reader α) (n : Nat) : Reader α := do
  if ← accept "(" then
    return group F.tuple (← enclosed ")" self n)
  else if ← accept F.left then
    return F.record (← enclosed F.right (labelled F.labelChar self) n)
  else
    F.bare

/-- Takes an argument. -/
def argument (F : Forms α) (self : Reader α) (n : Nat) : Reader α := do
  expect " "
  F.atom self n

/-- Takes a value with all its arguments. -/
def application (F : Forms α) (self : Reader α) (n : Nat) : Reader α := do
  let a ← F.atom self n
  match F.name? a with
  | some name => return F.con name (← many F.more (F.argument self n) n)
  | none => return a

variable {F : Forms α} {self : Reader α} {n : Nat} {text : α → String} {p : Char → Bool}
  {P Ends : List Char → Prop}

/-- Values that are read one by one are read between parentheses. -/
theorem atom_group {as : List α} (hsep : Separated ")" Ends) (hp : p ')' = false)
    (hbegins : ∀ a ∈ as, BeginsWith p (text a)) (hself : ∀ a ∈ as, self.Takes Ends (text a) a)
    (hn : as.length ≤ n) :
    (F.atom self n).Takes (fun _ => True) ("(" ++ Text.commas (as.map text) ++ ")") (group F.tuple as) := by
  intro rest _
  have hopen : ∀ a ∈ as, ∀ rest, ")".toList.isPrefixOf ((text a).toList ++ rest) = false := fun a ha rest =>
    (hbegins a ha).isPrefixOf_eq_false ⟨')', [], rfl, congrArg not hp⟩ rest
  rw [atom, String.toList_append, String.toList_append, List.append_assoc, List.append_assoc,
    run_bind_of (run_accept "(" _), if_pos rfl]
  exact run_bind_of (run_enclosed hsep hopen hself hn rest)

theorem atom_parens {a : α} (hsep : Separated ")" Ends) (hp : p ')' = false) (hbegins : BeginsWith p (text a))
    (hself : self.Takes Ends (text a) a) (hn : 1 ≤ n) :
    (F.atom self n).Takes (fun _ => True) (Text.parens (text a)) a := by
  have hone := atom_group (F := F) (n := n) hsep hp (List.forall_mem_singleton.mpr hbegins)
    (List.forall_mem_singleton.mpr hself) hn
  rwa [List.map_singleton, Text.commas_singleton] at hone

theorem atom_record {fields : List (String × α)} (hsep : Separated F.right Ends)
    (hleft : BeginsWith (fun c => !(c == '(')) F.left)
    (hright : BeginsWith (fun c => !(F.labelChar c || c == ':')) F.right) (hcolon : F.labelChar ':' = false)
    (hlabels : ∀ f ∈ fields, ∀ c ∈ f.1.toList, F.labelChar c = true)
    (hself : ∀ f ∈ fields, self.Takes Ends (text f.2) f.2) (hn : fields.length ≤ n) :
    (F.atom self n).Takes (fun _ => True)
      (F.left ++ Text.commas (fields.map fun f => f.1 ++ ": " ++ text f.2) ++ F.right) (F.record fields) := by
  intro rest _
  rw [atom, String.toList_append, String.toList_append, List.append_assoc, List.append_assoc,
    run_bind_of (hleft.run_accept ⟨'(', [], rfl, rfl⟩ _), if_neg Bool.false_ne_true,
    run_bind_of (run_accept F.left _), if_pos rfl]
  exact run_bind_of (run_fields hsep hright hcolon hlabels hself hn rest)

/-- What needs no brackets is read as such. -/
theorem atom_bare {s : String} {a : α} (hs : BeginsWith p s) (hp : p '(' = false)
    (hleft : BeginsWith (fun c => !p c) F.left) (hbare : F.bare.Takes P s a) : (F.atom self n).Takes P s a := by
  intro rest hrest
  rw [atom, run_bind_of (hs.run_accept ⟨'(', [], rfl, congrArg not hp⟩ rest), if_neg Bool.false_ne_true,
    run_bind_of (hs.run_accept hleft rest), if_neg Bool.false_ne_true]
  exact hbare rest hrest

theorem application_of_atom {s : String} {a : α} (hatom : (F.atom self n).Takes P s a)
    (hname : F.name? a = none) : (F.application self n).Takes P s a := by
  intro rest hrest
  rw [application, run_bind_of (hatom rest hrest), hname]
  rfl

/-- A name and arguments that are read one by one are read as an application. -/
theorem application_con {name : String} {args : List α}
    (hatom : (F.atom self n).Takes P name (F.con name [])) (hname : F.name? (F.con name []) = some name)
    (hmore : ∀ a ∈ args, ∀ rest,
      F.more ((" " ++ text a).toList ++ rest) = true ∧ P ((" " ++ text a).toList ++ rest))
    (hargs : ∀ a ∈ args, (F.atom self n).Takes P (text a) a) (hn : args.length ≤ n) :
    (F.application self n).Takes (fun rest => P rest ∧ F.more rest = false)
      (name ++ String.join (args.map fun a => " " ++ text a)) (F.con name args) := by
  rintro rest ⟨hrest, hend⟩
  have hargument : ∀ a ∈ args, (F.argument self n).Takes P (" " ++ text a) a := by
    intro a ha rest hrest
    rw [argument, String.toList_append, List.append_assoc, run_bind_of (run_expect " " _)]
    exact hargs a ha rest hrest
  have hnext : P ((String.join (args.map fun a => " " ++ text a)).toList ++ rest) := by
    cases args with
    | nil => exact hrest
    | cons a args =>
        rw [List.map_cons, String.join_cons, String.toList_append, List.append_assoc]
        exact (hmore a List.mem_cons_self _).2
  rw [application, String.toList_append, List.append_assoc, run_bind_of (hatom _ hnext), hname]
  exact run_bind_of (run_many (fun a ha rest => (hmore a ha rest).1) (fun _ _ a ha rest => (hmore a ha rest).2)
    hargument hn (fun _ _ => hrest) hend)

end Forms

end Reader

end Polytype
