import LessCss.Expr
import LessCss.Diagnostic
import LessCss.Number.FourPlaces
/-!
Values, and what an expression evaluates to when the values of its variables are known.

A number that is only passed on keeps its spelling. One that has been computed is written with at most four
decimal places.
-/
namespace LessCss

/-- A number with its unit, and its spelling unless it has been computed. -/
structure Dimension where
  value : Float
  unit : Text
  text : Option Text
deriving Repr

inductive Value
  | dimension (d : Dimension)
  | keyword (text : Text)
  | list (items : List Value) (separator : Separator)
deriving Repr

def Separator.text : Separator → Text
  | space => [' ']
  | comma => [',', ' ']

namespace Dimension

def render (d : Dimension) : Text := d.text.getD (FourPlaces.render d.value ++ d.unit)

/-- The unit of a result: that of the left operand, or of the right one if the left has none. -/
def commonUnit (a b : Dimension) : Text := if a.unit.isEmpty then b.unit else a.unit

def negate (d : Dimension) : Dimension := ⟨-d.value, d.unit, none⟩

def operate? (op : Operator) (a b : Dimension) : Option Dimension :=
  match op with
  | .add => some ⟨a.value + b.value, commonUnit a b, none⟩
  | .subtract => some ⟨a.value - b.value, commonUnit a b, none⟩
  | .multiply => some ⟨a.value * b.value, commonUnit a b, none⟩
  | .divide => if b.value == 0 then none else some ⟨a.value / b.value, commonUnit a b, none⟩

end Dimension

namespace Value

mutual

/-- The text of a value. Lists within lists are written without brackets. -/
def render : Value → Text
  | .dimension d => d.render
  | .keyword text => text
  | .list items separator => Text.join separator.text (renderAll items)

def renderAll : List Value → List Text
  | [] => []
  | v :: vs => v.render :: renderAll vs

end

theorem renderAll_eq_map (vs : List Value) : renderAll vs = vs.map render := by
  induction vs with
  | nil => rfl
  | cons v vs ih => rw [renderAll, ih, List.map_cons]

/-- The negative of a number. Before any other value a minus is written. -/
def negate : Value → Value
  | dimension d => .dimension d.negate
  | v => .keyword ('-' :: v.render)

def operate (op : Operator) (p : Position) : Value → Value → Except Diagnostic Value
  | dimension a, dimension b =>
    match Dimension.operate? op a b with
    | some d => .ok (.dimension d)
    | none => .error (Fault.divisionByZero.blame p)
  | _, _ => .error (Fault.invalidOperands.blame p)

end Value

/-- How variables are looked up: by name, at the place where the name stands. -/
abbrev Lookup := Text → Position → Except Diagnostic Value

namespace Expr

/-- The piece that a token of a function call leaves: variables are replaced by the text of their values. -/
def argumentPiece (lookup : Lookup) (t : Token) : Except Diagnostic Token.Piece :=
  if t.kind = .atKeyword then (lookup t.name t.position).map fun v => (t.spaced, v.render) else .ok t.piece

mutual

/-- The value of an expression. Operands are evaluated from left to right. -/
def evaluate (lookup : Lookup) : Expr → Except Diagnostic Value
  | .number value unit text => .ok (.dimension ⟨value, unit, some text⟩)
  | .keyword text => .ok (.keyword text)
  | .reference name position => lookup name position
  | .function name args => do
    let inner ← args.mapM (argumentPiece lookup)
    .ok (.keyword (name ++ '(' :: Token.joinPieces inner ++ [')']))
  | .negate operand => do .ok (← evaluate lookup operand).negate
  | .binary op lhs rhs position => do
    let a ← evaluate lookup lhs
    let b ← evaluate lookup rhs
    Value.operate op position a b
  | .list items separator => do .ok (.list (← evaluateAll lookup items) separator)

def evaluateAll (lookup : Lookup) : List Expr → Except Diagnostic (List Value)
  | [] => .ok []
  | e :: es => do
    let v ← evaluate lookup e
    .ok (v :: (← evaluateAll lookup es))

end

end Expr
end LessCss
