import LessCss.Token
/-!
Expressions: what the value of a declaration says before its variables are looked up.
-/
namespace LessCss

inductive Operator
  | add
  | subtract
  | multiply
  | divide
deriving DecidableEq, Repr

inductive Separator
  | space
  | comma
deriving DecidableEq, Repr

/-- An expression. A number keeps its spelling, and the arguments of a function stay tokens, since only their
variables are replaced. -/
inductive Expr
  | number (value : Float) (unit text : Text)
  | keyword (text : Text)
  | reference (name : Text) (position : Position)
  | function (name : Text) (args : List Token)
  | negate (operand : Expr)
  | binary (op : Operator) (lhs rhs : Expr) (position : Position)
  | list (items : List Expr) (separator : Separator)
deriving Repr

namespace Expr

def collapse (separator : Separator) : List Expr → Expr
  | [e] => e
  | es => .list es separator

end Expr
end LessCss
