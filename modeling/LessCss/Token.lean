import LessCss.Position
/-!
Tokens of a style sheet.

A token keeps its text exactly as it stands in the source, its place, and whether blanks or comments come
before it. `Token.join` writes a run of tokens back with at most one space between neighbours.
-/
namespace LessCss

/-- The kinds of token. A token of kind `unterminated` is a string or a `url(` that is never closed. -/
inductive Token.Kind
  | ident
  | number
  | hash
  | atKeyword
  | string
  | unterminated
  | url
  | function
  | colon
  | semicolon
  | comma
  | lbrace
  | rbrace
  | lparen
  | rparen
  | operator
  | delim
  | eof
deriving DecidableEq, Repr, Inhabited

structure Token where
  kind : Token.Kind
  text : Text
  position : Position
  spaced : Bool
deriving DecidableEq, Repr, Inhabited

namespace Token

/-- Whether a token is the single character `c`, which stands for nothing in particular. -/
def isDelim (t : Token) (c : Char) : Bool := t.kind = .delim ∧ t.text.head? = some c

def isOperator (t : Token) (c : Char) : Bool := t.kind = .operator ∧ t.text.head? = some c

/-- The name of a variable without its `@`, or of a function without its parenthesis. -/
def name (t : Token) : Text :=
  match t.kind with
  | .atKeyword => t.text.tail
  | .function => t.text.dropLast
  | _ => t.text

abbrev Piece := Bool × Text

def piece (t : Token) : Piece := (t.spaced, t.text)

def Piece.text (p : Piece) : Text := if p.1 then ' ' :: p.2 else p.2

/-- The pieces in order. No space comes before the first piece that is not empty. -/
def joinPieces (ps : List Piece) : Text :=
  match ps.dropWhile (·.2.isEmpty) with
  | [] => []
  | p :: ps => p.2 ++ ps.flatMap Piece.text

def join (ts : List Token) : Text := joinPieces (ts.map piece)

end Token

namespace Tokens

/-- The tokens up to the parenthesis that closes the innermost of `depth + 1` open ones, and the tokens after it.
A token for which `barrier` holds ends the search. -/
def closeParen? (barrier : Token → Bool) : Nat → List Token → Option (List Token × List Token)
  | _, [] => none
  | depth, t :: ts =>
    if barrier t then none
    else match t.kind, depth with
      | .rparen, 0 => some ([], ts)
      | .rparen, d + 1 => (closeParen? barrier d ts).map fun (inner, rest) => (t :: inner, rest)
      | .lparen, d => (closeParen? barrier (d + 1) ts).map fun (inner, rest) => (t :: inner, rest)
      | .function, d => (closeParen? barrier (d + 1) ts).map fun (inner, rest) => (t :: inner, rest)
      | _, d => (closeParen? barrier d ts).map fun (inner, rest) => (t :: inner, rest)

theorem closeParen?_length {barrier : Token → Bool} {depth : Nat} {ts inner rest : List Token}
    (h : closeParen? barrier depth ts = some (inner, rest)) : rest.length < ts.length := by
  fun_induction closeParen? barrier depth ts generalizing inner rest <;> simp_all <;> grind

end Tokens
end LessCss
