import LessCss.Text
/-!
Places in a source text. Lines and columns count from 1, and a column counts characters.
-/
namespace LessCss

structure Position where
  line : Nat
  column : Nat
deriving DecidableEq, Repr, Inhabited

namespace Position

def start : Position := ⟨1, 1⟩

/-- The place after one character: a newline opens the next line. -/
def next (p : Position) (c : Char) : Position :=
  if c = '\n' then ⟨p.line + 1, 1⟩ else ⟨p.line, p.column + 1⟩

/-- The place after a text that begins at `p`. -/
def after (p : Position) (t : Text) : Position := t.foldl next p

def render (p : Position) : String :=
  "line " ++ toString p.line ++ ", column " ++ toString p.column

end Position
end LessCss
