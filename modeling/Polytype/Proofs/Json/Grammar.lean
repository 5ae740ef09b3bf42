/-
# Polytype.Proofs.Json.Grammar — which bytes are a text of which value.

This is the grammar of JSON, over bytes and with two relaxations, both about strings: a byte below 32 may stand in a
string as it is, and bytes from 128 on may stand there in any arrangement, whether they encode characters or not.
`Denotes v t` says that the bytes `t` are a text of the value `v`; it has one rule for each form of value.  Arrays and
objects have the same punctuation, so what they share is said once: any number of items with blanks around them and
commas between them (`Series`).

A string is a sequence of bytes.  Where a text gives a character by its code, the bytes are those of the character in
UTF-8 (`decode`); two codes may make up one character, and half of such a pair without the other half stands
for the replacement character.  A number is kept as it is written, and an object keeps its members in their order.
-/
import Polytype.Diagnostic.Json

namespace Polytype.Json

/-! ## Values -/

/-- What a text can mean. -/
inductive Value where
  | null
  | bool (b : Bool)
  | number (text : List UInt8)
  | string (s : List UInt8)
  | array (elems : List Value)
  | object (members : List (List UInt8 × Value))

/-- Induction on values, with the hypothesis for every element and every member. -/
@[induction_eliminator]
theorem Value.induct {motive : Value → Prop} (null : motive .null) (bool : ∀ b, motive (.bool b))
    (number : ∀ text, motive (.number text)) (string : ∀ s, motive (.string s))
    (array : ∀ elems, (∀ v ∈ elems, motive v) → motive (.array elems))
    (object : ∀ members, (∀ m ∈ members, motive m.2) → motive (.object members)) (v : Value) : motive v :=
  @Value.rec motive (fun vs => ∀ v ∈ vs, motive v) (fun ms => ∀ m ∈ ms, motive m.2) (fun m => motive m.2)
    null bool number string array object
    (by simp) (fun _ _ hv hvs => List.forall_mem_cons.2 ⟨hv, hvs⟩)
    (by simp) (fun _ _ hm hms => List.forall_mem_cons.2 ⟨hm, hms⟩)
    (fun _ _ hv => hv) v

/-! ## Blanks -/

/-- The bytes that may stand between other parts of a text. -/
def isBlank (b : UInt8) : Bool :=
  b = ' '.toUInt8 || b = '\t'.toUInt8 || b = '\n'.toUInt8 || b = '\r'.toUInt8

/-- Nothing but blanks. -/
def Blank (w : List UInt8) : Prop := ∀ b ∈ w, isBlank b = true

instance (w : List UInt8) : Decidable (Blank w) := List.decidableBAll _ w

theorem blank_nil : Blank [] := List.forall_mem_nil _

/-! ## Numbers -/

/-- The decimal digits. -/
def isDigit (b : UInt8) : Bool := '0'.toUInt8 ≤ b && b ≤ '9'.toUInt8

/-- At least one digit. -/
def Digits (ds : List UInt8) : Prop := ds ≠ [] ∧ ∀ b ∈ ds, isDigit b = true

/-- A whole number without a leading zero. -/
inductive Whole : List UInt8 → Prop
  | zero : Whole ['0'.toUInt8]
  | digits {d : UInt8} {ds : List UInt8} : d ≠ '0'.toUInt8 → Digits (d :: ds) → Whole (d :: ds)

/-- What may follow a point. -/
inductive Fraction : List UInt8 → Prop
  | none : Fraction []
  | digits {ds : List UInt8} : Digits ds → Fraction ('.'.toUInt8 :: ds)

/-- A power of ten. -/
inductive Exponent : List UInt8 → Prop
  | none : Exponent []
  | digits {e : UInt8} {sign ds : List UInt8} : e ∈ ['e'.toUInt8, 'E'.toUInt8] →
      sign ∈ [[], ['+'.toUInt8], ['-'.toUInt8]] → Digits ds → Exponent (e :: (sign ++ ds))

/-- A number. -/
inductive Number : List UInt8 → Prop
  | parts {sign whole fraction exponent : List UInt8} : sign ∈ [[], ['-'.toUInt8]] → Whole whole →
      Fraction fraction → Exponent exponent → Number (sign ++ (whole ++ (fraction ++ exponent)))

/-! ## Strings -/

/-- What a string is made of: bytes, and code units that are given by their numbers. -/
inductive Piece where
  | byte (b : UInt8)
  | code (n : Nat)
  deriving DecidableEq, Repr

/-- What each of the short escapes stands for. -/
def shortEscapes : List (UInt8 × UInt8) :=
  [('"'.toUInt8, '"'.toUInt8), ('\\'.toUInt8, '\\'.toUInt8), ('/'.toUInt8, '/'.toUInt8), ('b'.toUInt8, 8),
    ('f'.toUInt8, 12), ('n'.toUInt8, 10), ('r'.toUInt8, 13), ('t'.toUInt8, 9)]

/-- The value of a hexadecimal digit. -/
def hexDigit? (b : UInt8) : Option Nat :=
  if isDigit b then some (b.toNat - '0'.toNat)
  else if 'a'.toUInt8 ≤ b && b ≤ 'f'.toUInt8 then some (b.toNat - 'a'.toNat + 10)
  else if 'A'.toUInt8 ≤ b && b ≤ 'F'.toUInt8 then some (b.toNat - 'A'.toNat + 10)
  else none

/-- The number that hexadecimal digits stand for. -/
def hexNumber? (ds : List UInt8) : Option Nat :=
  ds.foldlM (fun n d => (hexDigit? d).map (16 * n + ·)) 0

/-- What stands between the quotation marks of a string. -/
inductive Chars : List Piece → List UInt8 → Prop
  | nil : Chars [] []
  | raw {b : UInt8} {ps : List Piece} {t : List UInt8} : b ≠ '"'.toUInt8 → b ≠ '\\'.toUInt8 →
      Chars ps t → Chars (.byte b :: ps) (b :: t)
  | short {e b : UInt8} {ps : List Piece} {t : List UInt8} : shortEscapes.lookup e = some b →
      Chars ps t → Chars (.byte b :: ps) ('\\'.toUInt8 :: e :: t)
  | code {ds : List UInt8} {n : Nat} {ps : List Piece} {t : List UInt8} : ds.length = 4 → hexNumber? ds = some n →
      Chars ps t → Chars (.code n :: ps) ('\\'.toUInt8 :: 'u'.toUInt8 :: (ds ++ t))

/-- Whether a code unit is the first half of a pair. -/
def isHigh (n : Nat) : Bool := 0xD800 ≤ n && n < 0xDC00

/-- Whether a code unit is the second half of a pair. -/
def isLow (n : Nat) : Bool := 0xDC00 ≤ n && n < 0xE000

/-- The bytes of the character with a code. -/
def codeBytes (n : Nat) : List UInt8 :=
  String.utf8EncodeChar (if isHigh n || isLow n then Char.ofNat 0xFFFD else Char.ofNat n)

/-- The bytes that a string is made of. -/
def decode : List Piece → List UInt8
  | [] => []
  | .byte b :: ps => b :: decode ps
  | .code n :: .code m :: ps =>
    if isHigh n && isLow m then
      codeBytes (0x10000 + (n - 0xD800) * 0x400 + (m - 0xDC00)) ++ decode ps
    else codeBytes n ++ decode (.code m :: ps)
  | .code n :: ps => codeBytes n ++ decode ps

/-- A string in quotation marks. -/
inductive Quoted : List UInt8 → List UInt8 → Prop
  | marks {ps : List Piece} {t : List UInt8} : Chars ps t →
      Quoted (decode ps) ('"'.toUInt8 :: (t ++ ['"'.toUInt8]))

/-! ## Punctuation -/

section Punctuation

variable {α : Type}

/-- A name and what it stands for, with a colon between them. -/
inductive Member (R : α → List UInt8 → Prop) : List UInt8 × α → List UInt8 → Prop
  | colon {name k w w' t : List UInt8} {a : α} : Quoted name k → Blank w → Blank w' → R a t →
      Member R (name, a) (k ++ (w ++ ':'.toUInt8 :: (w' ++ t)))

/-- Any number of items, with blanks around them and commas between them. -/
inductive Series (R : α → List UInt8 → Prop) : List α → List UInt8 → Prop
  | empty {w : List UInt8} : Blank w → Series R [] w
  | single {a : α} {w t w' : List UInt8} : Blank w → R a t → Blank w' → Series R [a] (w ++ (t ++ w'))
  | comma {a b : α} {as : List α} {w t w' ts : List UInt8} : Blank w → R a t → Blank w' →
      Series R (b :: as) ts → Series R (a :: b :: as) (w ++ (t ++ (w' ++ ','.toUInt8 :: ts)))

end Punctuation

/-! ## Texts -/

/-- The bytes are a text of the value, without blanks around it. -/
inductive Denotes : Value → List UInt8 → Prop
  | null : Denotes .null (literal Char.toUInt8 "null")
  | true : Denotes (.bool true) (literal Char.toUInt8 "true")
  | false : Denotes (.bool false) (literal Char.toUInt8 "false")
  | number {t : List UInt8} : Number t → Denotes (.number t) t
  | string {s t : List UInt8} : Quoted s t → Denotes (.string s) t
  | array {vs : List Value} {t : List UInt8} : Series Denotes vs t →
      Denotes (.array vs) ('['.toUInt8 :: (t ++ [']'.toUInt8]))
  | object {ms : List (List UInt8 × Value)} {t : List UInt8} : Series (Member Denotes) ms t →
      Denotes (.object ms) ('\x7b'.toUInt8 :: (t ++ ['\x7d'.toUInt8]))

/-- The bytes are a text of the value. -/
inductive Text (v : Value) : List UInt8 → Prop
  | blanks {w t w' : List UInt8} : Blank w → Denotes v t → Blank w' → Text v (w ++ (t ++ w'))

end Polytype.Json
