import LessCss.Main
import LessCss.Proofs.Sheet.RoundTrip
import LessCss.Proofs.Sheet.Balance
import LessCss.Proofs.Expr.Literal
import LessCss.Proofs.Css.Gaps
import LessCss.Proofs.Css.PlainMinified
import LessCss.Proofs.Css.Guards
import LessCss.Proofs.Css.GuardedRun
import LessCss.Proofs.Css.Flattening
import LessCss.Proofs.Css.Values
import LessCss.Proofs.Css.Constants
import LessCss.Proofs.Css.Sources
import LessCss.Proofs.Css.Minified
import LessCss.Proofs.Css.Names
import LessCss.Proofs.Css.Legible
import LessCss.Proofs.Css.Blame
import LessCss.Proofs.Css.Unterminated
import LessCss.Proofs.File.Compile
import LessCss.Proofs.Css.Lookups
import LessCss.Proofs.Css.MixinInlining
import LessCss.Proofs.Css.MachineRun
import LessCss.Proofs.Css.Resolved
import LessCss.Proofs.Css.Importance
import LessCss.Proofs.Css.Recursion
import LessCss.Proofs.Expr.FormulaText
import LessCss.Proofs.Expr.Arithmetic
import LessCss.Proofs.Expr.Verbatim
import LessCss.Proofs.Expr.Division
import LessCss.Proofs.Expr.Minus
import LessCss.Proofs.Sheet.Preludes
import LessCss.Proofs.Sheet.Terminators
import LessCss.Proofs.Css.Chains
import LessCss.Proofs.Css.Shape
import LessCss.Proofs.Css.Callable
import LessCss.Proofs.Expr.Printed
import LessCss.Proofs.Sheet.Arguments
import LessCss.Proofs.Number.Accuracy
import LessCss.Proofs.Css.Languages
import LessCss.Proofs.Sheet.Loops
import LessCss.Proofs.Number.Spelling
import LessCss.Proofs.Token.Words
