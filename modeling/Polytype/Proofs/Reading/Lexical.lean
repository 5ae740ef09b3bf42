/-
# Polytype.Proofs.Reading.Lexical — the names and words of programs.

A name is valid when its first letter tells what it is a name of: constructors and types begin with a capital
letter, everything else with a small one or an underscore, and keywords are no names (`Name.isVariable`).  Then a
single word of a program is a number, a truth value, a constructor or a name, and which of these it is can be seen
from the word itself (`Token.ofWord`).

What begins a pattern or an expression is a word, a negative number or an opening bracket (`opens`).  None of these
looks like an operator, a comma or a closing bracket.
-/
import Polytype.Proofs.Reading.TypeExpr
import Polytype.Surface.Pattern
import Std.Data.String.ToInt

namespace Polytype

open Reader

/-! ## Names -/

namespace Name

/-- The words that are not names. -/
def keywords : List String :=
  ["_", "else", "false", "fun", "if", "in", "let", "match", "rec", "then", "true", "with"]

/-- The characters that variables begin with. -/
def variableStart (c : Char) : Bool := c.isLower || c == '_'

/-- Whether a variable, a parameter or a field may have the name. -/
def isVariable (name : String) : Bool := isIdentifier variableStart name && !keywords.contains name

/-- Whether a constructor or a type may have the name. -/
def isCapitalized (name : String) : Bool := isIdentifier Char.isUpper name

theorem isVariable_iff {name : String} :
    isVariable name = true ↔ isIdentifier variableStart name = true ∧ name ∉ keywords := by
  simp [isVariable]

theorem ne_of_isVariable {name k : String} (h : isVariable name = true) (hk : k ∈ keywords) : name ≠ k := by
  rintro rfl
  exact (isVariable_iff.mp h).2 hk

/-- Classes of characters are ranges. -/
theorem between_iff (low high : UInt32) {c : Char} :
    c.val ≥ low ∧ c.val ≤ high ↔ low.toNat ≤ c.toNat ∧ c.toNat ≤ high.toNat := by
  rw [ge_iff_le, UInt32.le_iff_toNat_le, UInt32.le_iff_toNat_le, Char.toNat_val]

theorem isUpper_iff {c : Char} : c.isUpper = true ↔ 65 ≤ c.toNat ∧ c.toNat ≤ 90 :=
  decide_eq_true_iff.trans (between_iff 65 90)

theorem isLower_iff {c : Char} : c.isLower = true ↔ 97 ≤ c.toNat ∧ c.toNat ≤ 122 :=
  Bool.and_eq_true_iff.trans ((and_congr decide_eq_true_iff decide_eq_true_iff).trans (between_iff 97 122))

theorem isDigit_iff {c : Char} : c.isDigit = true ↔ 48 ≤ c.toNat ∧ c.toNat ≤ 57 :=
  Bool.and_eq_true_iff.trans ((and_congr decide_eq_true_iff decide_eq_true_iff).trans (between_iff 48 57))

theorem isDigit_eq_false_of_isUpper {c : Char} (h : c.isUpper = true) : c.isDigit = false := by
  rw [isUpper_iff] at h
  rw [← Bool.not_eq_true, isDigit_iff]
  omega

theorem variableStart_spec {c : Char} (h : variableStart c = true) : c.isUpper = false ∧ c.isDigit = false := by
  rcases Bool.or_eq_true_iff.mp h with h | h
  · rw [isLower_iff] at h
    rw [← Bool.not_eq_true, ← Bool.not_eq_true, isUpper_iff, isDigit_iff]
    omega
  · rw [eq_of_beq h]
    decide

theorem wordChar_of_mem {name : String} (h : isVariable name = true) {c : Char} (hc : c ∈ name.toList) :
    wordChar c = true := (isIdentifier_iff.mp (isVariable_iff.mp h).1).2 c hc

theorem isIdentifier_repr (n : Nat) : isIdentifier Char.isDigit n.repr = true := by
  refine isIdentifier_iff.mpr ⟨?_, fun c hc => wordChar_of_isDigit (isDigit_of_mem_repr hc)⟩
  cases hw : n.repr.toList with
  | nil => exact absurd (String.toList_eq_nil_iff.mp hw) Nat.repr_ne_empty
  | cons c cs => exact ⟨c, cs, rfl, isDigit_of_mem_repr (hw ▸ List.mem_cons_self)⟩

end Name

/-! ## Types in programs -/

namespace TypeExpr

mutual
/-- Whether the names of the type are valid, and no tuple has one component. -/
def lexical : TypeExpr → Bool
  | .con name args => Name.isCapitalized name && lexicalList args
  | .var name => Name.isVariable name
  | .arrow dom cod => dom.lexical && cod.lexical
  | .tuple elems => elems.length != 1 && lexicalList elems
  | .record fields => lexicalFields fields
/-- Whether all types of a list are valid. -/
def lexicalList : List TypeExpr → Bool
  | [] => true
  | t :: ts => t.lexical && lexicalList ts
/-- Whether all labelled types are valid, and so are the labels. -/
def lexicalFields : List (String × TypeExpr) → Bool
  | [] => true
  | (l, t) :: fs => Name.isVariable l && t.lexical && lexicalFields fs
end

theorem lexicalList_iff {ts : List TypeExpr} : lexicalList ts = true ↔ ∀ t ∈ ts, t.lexical = true := by
  induction ts with
  | nil => simp [lexicalList]
  | cons t ts ih => rw [lexicalList, Bool.and_eq_true, ih, List.forall_mem_cons]

theorem lexicalFields_iff {fs : List (String × TypeExpr)} : lexicalFields fs = true ↔
    ∀ f ∈ fs, Name.isVariable f.1 = true ∧ f.2.lexical = true := by
  induction fs with
  | nil => simp [lexicalFields]
  | cons f fs ih => rw [lexicalFields, Bool.and_eq_true, Bool.and_eq_true, ih, List.forall_mem_cons]

theorem readable_of_lexical {t : TypeExpr} (h : t.lexical = true) : t.Readable := by
  induction t with
  | con name args ih =>
      rw [lexical, Bool.and_eq_true, lexicalList_iff] at h
      refine .con (.of_isIdentifier h.1 fun c hc => ?_) fun t ht => ih t ht (h.2 t ht)
      exact ⟨nameStart_of_isUpper hc, hc⟩
  | var name =>
      refine .var (.of_isIdentifier (Name.isVariable_iff.mp h).1 fun c hc => ⟨?_, ?_⟩)
      · rcases Bool.or_eq_true_iff.mp hc with hc | hc
        · have halpha : c.isAlpha = true := Bool.or_eq_true_iff.mpr (Or.inr hc)
          rw [nameStart, halpha]
          rfl
        · simp [nameStart, hc]
      · rw [(Name.variableStart_spec hc).1]
        rfl
  | arrow dom cod ihd ihc =>
      rw [lexical, Bool.and_eq_true] at h
      exact .arrow (ihd h.1) (ihc h.2)
  | tuple elems ih =>
      rw [lexical, Bool.and_eq_true, bne_iff_ne, lexicalList_iff] at h
      exact .tuple h.1 fun t ht => ih t ht (h.2 t ht)
  | record fields ih =>
      rw [lexical, lexicalFields_iff] at h
      refine .record (fun f hf c hc => ?_) fun f hf => ih f hf (h f hf).2
      exact nameChar_of_wordChar (Name.wordChar_of_mem (h f hf).1 hc)

end TypeExpr

/-! ## Words -/

/-- What a single word stands for. -/
inductive Token where
  | int (v : Int)
  | bool (b : Bool)
  | capitalized (w : String)
  | name (w : String)

/-- What the word stands for. -/
def Token.ofWord (w : String) : Token :=
  if w = "true" then .bool true
  else if w = "false" then .bool false
  else if w.toList.head?.any Char.isDigit then .int (w.toInt?.getD 0)
  else if w.toList.head?.any Char.isUpper then .capitalized w
  else .name w

namespace Token

theorem ofWord_boolWord (b : Bool) : ofWord (boolWord b) = .bool b := by
  cases b <;> rfl

/-- A word that does not begin like one of the truth values is none of them. -/
theorem ofWord_of_head {w : String} {c : Char} {cs : List Char} (hw : w.toList = c :: cs) (ht : c ≠ 't')
    (hf : c ≠ 'f') : ofWord w =
      if c.isDigit then .int (w.toInt?.getD 0) else if c.isUpper then .capitalized w else .name w := by
  have htrue : w ≠ "true" := by
    rintro rfl
    exact ht (List.cons.inj hw).1.symm
  have hfalse : w ≠ "false" := by
    rintro rfl
    exact hf (List.cons.inj hw).1.symm
  rw [ofWord, if_neg htrue, if_neg hfalse, hw]
  rfl

theorem ofWord_repr (n : Nat) : ofWord n.repr = .int n := by
  obtain ⟨⟨c, cs, hw, hc⟩, -⟩ := Name.isIdentifier_iff.mp (Name.isIdentifier_repr n)
  have hint : n.repr.toInt? = some (n : Int) := Int.toInt?_repr n
  rw [ofWord_of_head hw (by rintro rfl; cases hc) (by rintro rfl; cases hc), if_pos hc, hint, Option.getD_some]

theorem ofWord_capitalized {w : String} (h : Name.isCapitalized w = true) : ofWord w = .capitalized w := by
  obtain ⟨⟨c, cs, hw, hc⟩, -⟩ := Name.isIdentifier_iff.mp h
  have hdigit := Name.isDigit_eq_false_of_isUpper hc
  rw [ofWord_of_head hw (by rintro rfl; cases hc) (by rintro rfl; cases hc), if_neg (by simp [hdigit]), if_pos hc]

theorem ofWord_variable {w : String} (h : Name.isVariable w = true) : ofWord w = .name w := by
  obtain ⟨⟨c, cs, hw, hc⟩, -⟩ := Name.isIdentifier_iff.mp (Name.isVariable_iff.mp h).1
  have hcap := Name.variableStart_spec hc
  rw [ofWord, if_neg (Name.ne_of_isVariable h (by decide)), if_neg (Name.ne_of_isVariable h (by decide)), hw]
  simp [hcap]

end Token

namespace Reader

/-- Takes a word, or a negative number. -/
def token : Reader Token := do
  if ← accept "-" then
    return .int (("-" ++ (← word Name.wordChar)).toInt?.getD 0)
  else
    return .ofWord (← word Name.wordChar)

theorem run_token {w : String} {rest : List Char} (hw : ∀ c ∈ w.toList, Name.wordChar c = true)
    (hrest : Stops Name.wordChar rest) (hminus : "-".toList.isPrefixOf (w.toList ++ rest) = false) :
    token.run (w.toList ++ rest) = some (.ofWord w, rest) := by
  rw [token, run_bind_of (run_accept_of_not hminus)]
  exact run_bind_of (run_word hw hrest)

/-! ## Beginnings -/

/-- Whether a pattern or an expression may begin here. -/
def opens : List Char → Bool
  | [] => false
  | c :: cs => if c = '-' then cs.head?.any Char.isDigit else Name.wordChar c || "('\x7b".toList.contains c

/-- Whether, after a blank, a pattern or an expression may begin. -/
def opensNext : List Char → Bool
  | ' ' :: cs => opens cs
  | _ => false

/-- The text begins a pattern or an expression, whatever follows it. -/
def Opens (s : String) : Prop := ∀ rest, opens (s.toList ++ rest) = true

theorem Opens.append {s : String} (h : Opens s) (t : String) : Opens (s ++ t) := by
  intro rest
  rw [String.toList_append, List.append_assoc]
  exact h _

/-- The characters that patterns and expressions begin with. -/
def openChar (c : Char) : Bool := Name.wordChar c || "-('\x7b".toList.contains c

theorem Opens.begins {s : String} (h : Opens s) : BeginsWith openChar s := by
  have hopens := h []
  rw [List.append_nil] at hopens
  cases hs : s.toList with
  | nil =>
      rw [hs] at hopens
      cases hopens
  | cons c cs =>
      rw [hs, opens] at hopens
      refine ⟨c, cs, hs, ?_⟩
      split at hopens
      next hminus =>
        rw [hminus]
        rfl
      next =>
        rw [openChar]
        simp at hopens ⊢
        tauto

/-! ## Spelling -/

/-- The text is a single word that stands for the token. -/
structure Spells (s : String) (t : Token) : Prop where
  taken : token.Takes (Stops Name.wordChar) s t
  begins : BeginsWith (fun c => Name.wordChar c || c == '-') s
  opens : Opens s

theorem spells_word {start : Char → Bool} {w : String} (h : Name.isIdentifier start w = true) :
    Spells w (.ofWord w) := by
  obtain ⟨⟨c, cs, hcs, -⟩, hall⟩ := Name.isIdentifier_iff.mp h
  have hc : Name.wordChar c = true := hall c (hcs ▸ List.mem_cons_self)
  have hbegins : BeginsWith Name.wordChar w := ⟨c, cs, hcs, hc⟩
  refine ⟨fun rest hrest => ?_, hbegins.mono fun d hd => by rw [hd, Bool.true_or], fun rest => ?_⟩
  · exact run_token hall hrest (hbegins.isPrefixOf_eq_false ⟨'-', [], rfl, rfl⟩ rest)
  · have hminus : c ≠ '-' := by
      rintro rfl
      cases hc
    rw [hcs, List.cons_append, Reader.opens, if_neg hminus, hc, Bool.true_or]

theorem spells_bool (b : Bool) : Spells (boolWord b) (.bool b) := by
  have hword : Name.isIdentifier Char.isLower (boolWord b) = true := by cases b <;> decide
  exact Token.ofWord_boolWord b ▸ spells_word hword

theorem spells_capitalized {w : String} (h : Name.isCapitalized w = true) : Spells w (.capitalized w) := by
  have hword := spells_word h
  rwa [Token.ofWord_capitalized h] at hword

theorem spells_variable {w : String} (h : Name.isVariable w = true) : Spells w (.name w) := by
  have hword := spells_word (Name.isVariable_iff.mp h).1
  rwa [Token.ofWord_variable h] at hword

theorem spells_int (v : Int) : Spells (toString v) (.int v) := by
  cases v with
  | ofNat n => exact Token.ofWord_repr n ▸ spells_word (Name.isIdentifier_repr n)
  | negSucc n =>
      obtain ⟨⟨c, cs, hcs, hc⟩, hall⟩ := Name.isIdentifier_iff.mp (Name.isIdentifier_repr (n + 1))
      have htext : toString (Int.negSucc n) = "-" ++ (n + 1).repr := rfl
      have hint : ("-" ++ (n + 1).repr).toInt? = some (Int.negSucc n) := Int.toInt?_repr (Int.negSucc n)
      rw [htext]
      refine ⟨fun rest hrest => ?_, BeginsWith.append ⟨'-', [], rfl, rfl⟩ _, fun rest => ?_⟩
      · rw [token, String.toList_append, List.append_assoc, run_bind_of (run_accept "-" _), if_pos rfl,
          run_bind_of (run_word hall hrest), hint]
        rfl
      · rw [String.toList_append, hcs]
        exact hc

end Reader

end Polytype
