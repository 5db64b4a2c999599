import LessCss.Expr
import LessCss.Sheet
import LessCss.Diagnostic
import LessCss.Token
import LessCss.Number.Numeral
/-!
The expression that a row of tokens spells.

From loose to tight: lists with commas, lists with spaces, sums, products, operands. Each layer is made from a
reader of operands, and every reader leaves fewer tokens than it was given. The reader of operands is made
from the number of parentheses and minus signs that may still be nested, so it ends.
-/
namespace LessCss

abbrev Fewer (ts : List Token) := { rest : List Token // rest.length < ts.length }

/-- The tokens that a reader leaves when it may read nothing. -/
abbrev NoMore (ts : List Token) := { rest : List Token // rest.length ≤ ts.length }

namespace Fewer

def of {ts us : List Token} (h : us.length ≤ ts.length) (r : Fewer us) : Fewer ts :=
  ⟨r.1, Nat.lt_of_lt_of_le r.2 h⟩

end Fewer

namespace NoMore

def all (ts : List Token) : NoMore ts := ⟨ts, Nat.le_refl _⟩

def of {ts us : List Token} (h : us.length ≤ ts.length) (r : NoMore us) : NoMore ts :=
  ⟨r.1, Nat.le_trans r.2 h⟩

def toFewer {ts us : List Token} (h : us.length < ts.length) (r : NoMore us) : Fewer ts :=
  ⟨r.1, Nat.lt_of_le_of_lt r.2 h⟩

end NoMore

namespace Expr

/-- A reader takes an expression from the front of a row of tokens. -/
abbrev Reader := (ts : List Token) → Except Diagnostic (Expr × Fewer ts)

def operator? (t : Token) : Option Operator :=
  if t.kind = .operator then
    if t.text = ['+'] then some .add
    else if t.text = ['-'] then some .subtract
    else if t.text = ['*'] then some .multiply
    else if t.text = ['/'] then some .divide
    else none
  else none

def sumOperator? (t : Token) : Option Operator := (operator? t).filter fun op => op = .add ∨ op = .subtract

def productOperator? (t : Token) : Option Operator := (operator? t).filter fun op => op = .multiply ∨ op = .divide

/-- Whether an item of a list may begin with a token. -/
def startsOperand (t : Token) : Bool :=
  (match t.kind with
    | .number | .ident | .hash | .string | .url | .atKeyword | .function | .lparen => true
    | _ => false) || t.isDelim '~' || t.isOperator '-'

/-- `12px/1.5` is one word when the slash touches both numbers. Between parentheses a slash always divides. -/
def shorthand? (inParens : Bool) (lhs : Expr) (op : Operator) (slash : Token) : List Token → Option Expr
  | [] => none
  | t :: _ =>
    match lhs with
    | .number _ _ text =>
      if op = .divide ∧ !inParens ∧ !slash.spaced ∧ !t.spaced ∧ t.kind = .number then
        some (.keyword (text ++ '/' :: t.text))
      else none
    | _ => none

def moreFactors (operand : Reader) (inParens : Bool) (lhs : Expr) :
    (ts : List Token) → Except Diagnostic (Expr × NoMore ts)
  | [] => .ok (lhs, .all [])
  | t :: ts =>
    match productOperator? t with
    | none => .ok (lhs, .all (t :: ts))
    | some op =>
      match shorthand? inParens lhs op t ts with
      | some e => do
        have hlt : ts.tail.length < (t :: ts).length := Nat.lt_succ_of_le (List.tail_sublist ts).length_le
        let (e, last) ← moreFactors operand inParens e ts.tail
        .ok (e, last.of (Nat.le_of_lt hlt))
      | none => do
        let (rhs, ⟨rest, hr⟩) ← operand ts
        have hlt : rest.length < (t :: ts).length := Nat.lt_succ_of_lt hr
        let (e, last) ← moreFactors operand inParens (.binary op lhs rhs t.position) rest
        .ok (e, last.of (Nat.le_of_lt hlt))
termination_by ts => ts.length
decreasing_by all_goals assumption

def product (operand : Reader) (inParens : Bool) : Reader := fun ts => do
  let (lhs, ⟨rest, hr⟩) ← operand ts
  let (e, last) ← moreFactors operand inParens lhs rest
  .ok (e, last.toFewer hr)

/-- In `a -b` the minus belongs to `b`, so the sum ends before it. -/
def endsSum (op : Operator) (t : Token) (ts : List Token) : Bool :=
  op = .subtract && t.spaced && ts.head?.any (!·.spaced)

def moreTerms (term : Reader) (lhs : Expr) : (ts : List Token) → Except Diagnostic (Expr × NoMore ts)
  | [] => .ok (lhs, .all [])
  | t :: ts =>
    match sumOperator? t with
    | none => .ok (lhs, .all (t :: ts))
    | some op =>
      if endsSum op t ts then .ok (lhs, .all (t :: ts))
      else do
        let (rhs, ⟨rest, hr⟩) ← term ts
        have hlt : rest.length < (t :: ts).length := Nat.lt_succ_of_lt hr
        let (e, last) ← moreTerms term (.binary op lhs rhs t.position) rest
        .ok (e, last.of (Nat.le_of_lt hlt))
termination_by ts => ts.length
decreasing_by all_goals assumption

def sum (term : Reader) : Reader := fun ts => do
  let (lhs, ⟨rest, hr⟩) ← term ts
  let (e, last) ← moreTerms term lhs rest
  .ok (e, last.toFewer hr)

/-- The items that follow without a separator. -/
def moreItems (item : Reader) : (ts : List Token) → Except Diagnostic (List Expr × NoMore ts)
  | [] => .ok ([], .all [])
  | t :: ts =>
    if startsOperand t then do
      let (e, ⟨rest, hr⟩) ← item (t :: ts)
      let (es, last) ← moreItems item rest
      .ok (e :: es, last.of (Nat.le_of_lt hr))
    else .ok ([], .all (t :: ts))
termination_by ts => ts.length
decreasing_by assumption

def spaceList (item : Reader) : Reader := fun ts => do
  let (e, ⟨rest, hr⟩) ← item ts
  let (es, last) ← moreItems item rest
  .ok (collapse .space (e :: es), last.toFewer hr)

/-- The groups that follow, each after a comma. -/
def moreGroups (group : Reader) : (ts : List Token) → Except Diagnostic (List Expr × NoMore ts)
  | [] => .ok ([], .all [])
  | t :: ts =>
    if t.kind = .comma then do
      let (e, ⟨rest, hr⟩) ← group ts
      have hlt : rest.length < (t :: ts).length := Nat.lt_succ_of_lt hr
      let (es, last) ← moreGroups group rest
      .ok (e :: es, last.of (Nat.le_of_lt hlt))
    else .ok ([], .all (t :: ts))
termination_by ts => ts.length
decreasing_by assumption

def commaList (group : Reader) : Reader := fun ts => do
  let (e, ⟨rest, hr⟩) ← group ts
  let (es, last) ← moreGroups group rest
  .ok (collapse .comma (e :: es), last.toFewer hr)

/-- A whole value, made from a reader of operands. -/
def value (operand : Reader) (inParens : Bool) : Reader :=
  commaList (spaceList (sum (product operand inParens)))

/-- An operand that is neither negative nor in parentheses, the first token of which is `t`. -/
def leaf (t : Token) (ts : List Token) : Except Diagnostic (Expr × NoMore ts) :=
  match t.kind with
  | .number =>
    match Measure.parse? t.text with
    | some (v, unit) => .ok (.number v unit t.text, .all ts)
    | none => .error ((Fault.invalidNumber t.text).blame t.position)
  | .ident | .hash | .string | .url => .ok (.keyword t.text, .all ts)
  | .atKeyword => .ok (.reference t.name t.position, .all ts)
  | .function =>
    match h : Tokens.closeParen? (fun _ => false) 0 ts with
    | some (args, rest) => .ok (.function t.name args, ⟨rest, Nat.le_of_lt (Tokens.closeParen?_length h)⟩)
    | none => .error ((Fault.missingCallParen t.text).blame t.position)
  | _ =>
    if t.isDelim '~' then
      match ts with
      | s :: rest =>
        if s.kind = .string then .ok (.keyword s.text.tail.dropLast, ⟨rest, by simp⟩)
        else .error (Fault.missingEscapedString.blame t.position)
      | [] => .error (Fault.missingEscapedString.blame t.position)
    else .error ((Fault.unexpectedInValue t.text).blame t.position)

/-- An operand with at most `budget` parentheses and minus signs nested in it. A value that stops where an
operand should be is blamed on `last`. -/
def operand (last : Position) (budget : Nat) (inParens : Bool) : Reader
  | [] => .error (Fault.missingOperand.blame last)
  | t :: ts =>
    if t.isOperator '-' then
      match budget with
      | 0 => .error (Fault.valueTooDeep.blame t.position)
      | budget + 1 => do
        let (e, rest) ← operand last budget inParens ts
        .ok (.negate e, rest.of (Nat.le_succ _))
    else if t.kind = .lparen then
      match budget with
      | 0 => .error (Fault.valueTooDeep.blame t.position)
      | budget + 1 => do
        let (e, ⟨rest, hr⟩) ← value (operand last budget true) true ts
        match rest, hr with
        | [], _ => .error (Fault.missingParen.blame t.position)
        | close :: rest, hr =>
          if close.kind = .rparen then .ok (e, ⟨rest, Nat.lt_succ_of_lt (Nat.lt_of_succ_lt hr)⟩)
          else .error ((Fault.notParen close.text).blame close.position)
    else do
      let (e, rest) ← leaf t ts
      .ok (e, rest.toFewer (Nat.lt_succ_self _))

/-- The expression that a row of tokens spells from end to end. -/
def ofTokens (ts : List Token) : Except Diagnostic Expr := do
  let last := (ts.getLast?.map Token.position).getD .start
  let (e, ⟨rest, _⟩) ← value (operand last maxNesting false) false ts
  match rest with
  | [] => .ok e
  | t :: _ => .error ((Fault.unexpectedInValue t.text).blame t.position)

end Expr
end LessCss
