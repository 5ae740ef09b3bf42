/-
# Polytype.Typecheck — checking a whole program.

The declarations are read, the body is typed in the empty environment, and its type is generalized.
The outcome is the scheme of the body with the warnings raised on the way, or the first error.
-/
import Polytype.Diagnostic.Display
import Polytype.Inference.Expr
import Polytype.Registry.Build

namespace Polytype

/-- How a program is to be checked. -/
structure Options where
  /-- Whether to warn about matches that leave something out. -/
  checkCoverage : Bool := true
  /-- Whether to write warnings in colour. -/
  colorOutput : Bool := true
  deriving DecidableEq, Repr

/-- The outcome of a successful check. -/
structure Checked where
  scheme : Scheme
  warnings : List Diagnostic
  colorOutput : Bool
  deriving DecidableEq

namespace Checked

/-- The text of the scheme. -/
def rendered (c : Checked) : String := c.scheme.render

/-- Whether anything was warned about. -/
def hasWarnings (c : Checked) : Bool := !c.warnings.isEmpty

/-- All warnings and their number, as they are written to the terminal. -/
def displayWarnings (c : Checked) : String := Diagnostic.displayAll (.of c.colorOutput) c.warnings

end Checked

/-- Checks a program. -/
def typecheck (p : Program) (options : Options := {}) : Except TypeError Checked := do
  let registry ← Registry.build p.decls
  let context : InferContext := { registry, checkCoverage := options.checkCoverage }
  let (result, st) := (Infer.expr context ∅ p.body).start {}
  let typing ← result
  return {
    scheme := Env.generalize ∅ (typing.subst.apply typing.type)
    warnings := st.warnings
    colorOutput := options.colorOutput }

end Polytype
