import Polytype.Coverage
import Polytype.Coverage.Gap
import Polytype.Diagnostic
import Polytype.Diagnostic.Display
import Polytype.Diagnostic.Json
import Polytype.Env
import Polytype.Fields
import Polytype.Inference.Expr
import Polytype.Inference.Pattern
import Polytype.Inference.State
import Polytype.Name.EditDistance
import Polytype.Name.Similar
import Polytype.Registry
import Polytype.Registry.Build
import Polytype.Registry.Resolve
import Polytype.Scheme
import Polytype.Subst
import Polytype.Surface.Expr
import Polytype.Surface.Pattern
import Polytype.Surface.Program
import Polytype.Surface.TypeExpr
import Polytype.Text
import Polytype.Ty
import Polytype.Ty.Text
import Polytype.TypeError
import Polytype.Typecheck
import Polytype.Unify
import Polytype.Proofs.Assignment
import Polytype.Proofs.Settled
import Polytype.Proofs.Unification
import Polytype.Proofs.Registry.WellFormed
import Polytype.Proofs.Typing.Rules
import Polytype.Proofs.Registry.Ascription
import Polytype.Proofs.Inference.Drawing
import Polytype.Proofs.Inference.Steps
import Polytype.Proofs.Inference.Hygiene
import Polytype.Proofs.Inference.Generalization
import Polytype.Proofs.Inference.Soundness
import Polytype.Proofs.Coverage.Totality
import Polytype.Proofs.Coverage.Values
import Polytype.Proofs.Coverage.Soundness
import Polytype.Proofs.Inference.Completeness
import Polytype.Proofs.Inference.Congruence
import Polytype.Proofs.Inference.Capture
import Polytype.Proofs.Inference.Warnings
import Polytype.Proofs.Inference.Noninterference
import Polytype.Proofs.Registry.Acceptance
import Polytype.Proofs.Registry.Contents
import Polytype.Proofs.Shift
import Polytype.Proofs.Inference.Lockstep
import Polytype.Proofs.Inference.Renumbering
import Polytype.Proofs.Registry.Erasure
import Polytype.Proofs.Inference.Erasure
import Polytype.Proofs.Registry.Reordering
import Polytype.Proofs.Inference.Declared
import Polytype.Proofs.Coverage.Exactness
import Polytype.Proofs.Inference.PatternNames
import Polytype.Proofs.Inference.Pairing
import Polytype.Proofs.Inference.Alpha
import Polytype.Proofs.Unification.Recursion
import Polytype.Proofs.Unification.Blame
import Polytype.Proofs.Unification.Symmetry
import Polytype.Proofs.Coverage.ArmSets
import Polytype.Proofs.Inference.Frame
import Polytype.Proofs.Name.EditScripts
import Polytype.Proofs.Name.Bytes
import Polytype.Proofs.Name.Suggestions
import Polytype.Proofs.Reading.Reader
import Polytype.Proofs.Reading.TypeExpr
import Polytype.Proofs.Reading.Ty
import Polytype.Proofs.Reading.Lexical
import Polytype.Proofs.Reading.Pattern
import Polytype.Proofs.Reading.Delimited
import Polytype.Proofs.Reading.Expr
import Polytype.Proofs.Reading.Regrouping
import Polytype.Proofs.Registry.Naming
import Polytype.Proofs.Reading.Ascription
import Polytype.Proofs.Inference.Renewal
import Polytype.Proofs.Action
import Polytype.Proofs.Json.Grammar
import Polytype.Proofs.Json.Unambiguity
import Polytype.Proofs.Json.Report
