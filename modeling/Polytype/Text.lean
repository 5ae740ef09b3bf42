/-
# Polytype.Text — the few ways in which this library puts text together.

Everything that is printed is built with `++`, `String.intercalate` and the two functions below, so
that a statement about a text can be read off its list of characters.
-/

namespace Polytype.Text

/-- The text in parentheses. -/
def parens (s : String) : String := "(" ++ s ++ ")"

/-- The text, in parentheses where the condition asks for them. -/
def parensIf (c : Bool) (s : String) : String := if c then parens s else s

/-- The texts with a comma and a blank between them. -/
def commas (ss : List String) : String := String.intercalate ", " ss

@[simp]
theorem commas_nil : commas [] = "" := rfl

@[simp]
theorem commas_singleton (s : String) : commas [s] = s := String.intercalate_singleton

@[simp]
theorem commas_cons_cons (s t : String) (ss : List String) :
    commas (s :: t :: ss) = s ++ ", " ++ commas (t :: ss) := String.intercalate_cons_cons

end Polytype.Text
