import LessCss.Token
import LessCss.Number.Numeral
/-!
The lexeme at the head of a text.

`gap` takes the blanks and comments that come first. `Lexeme.read` then takes the longest name, number, string,
`url(…)` or single character. Both split the text: what they take followed by what they leave is the text.
-/
namespace LessCss

structure Cut where
  taken : Text
  rest : Text
deriving DecidableEq, Repr

def Cut.push (c : Char) (k : Cut) : Cut := { k with taken := c :: k.taken }

/-- Where a reader of gaps stands. `starred` and `closing` are the last characters of `/*` and `*/`. -/
inductive GapState
  | outside
  | lineComment
  | starred
  | blockComment
  | closing
deriving DecidableEq, Repr

/-- Where the character `c` leads when `cs` follows it. There is no such place when `c` ends the gap. -/
def GapState.next? (s : GapState) (c : Char) (cs : Text) : Option GapState :=
  match s with
  | outside =>
    if Text.isBlank c then some outside
    else if c = '/' ∧ cs.head? = some '/' then some lineComment
    else if c = '/' ∧ cs.head? = some '*' then some starred
    else none
  | lineComment => if c = '\n' then some outside else some lineComment
  | starred => some blockComment
  | blockComment => if c = '*' ∧ cs.head? = some '/' then some closing else some blockComment
  | closing => some outside

/-- The blanks and comments at the head of a text. A comment that is never closed reaches to the end. -/
def gap : GapState → Text → Cut
  | _, [] => ⟨[], []⟩
  | s, c :: cs =>
    match s.next? c cs with
    | none => ⟨[], c :: cs⟩
    | some s => (gap s cs).push c

def isNameStart (c : Char) : Bool := c.isAlpha || c == '_' || 128 ≤ c.toNat

def isNameChar (c : Char) : Bool := isNameStart c || c.isDigit || c == '-'

def startsWith (p : Char → Bool) (t : Text) : Bool := t.head?.any p

structure Lexeme where
  kind : Token.Kind
  text : Text
  rest : Text
deriving DecidableEq, Repr

namespace Lexeme

def push (c : Char) (l : Lexeme) : Lexeme := { l with text := c :: l.text }

/-- The rest of a string after its opening quote. A newline ends it early, and a backslash takes the next
character along whatever it is. -/
def readString (quote : Char) : Text → Lexeme
  | [] => ⟨.unterminated, [], []⟩
  | c :: cs =>
    if c = '\n' then ⟨.unterminated, [], c :: cs⟩
    else if c = quote then ⟨.string, [c], cs⟩
    else if c = '\\' then
      match cs with
      | [] => ⟨.unterminated, [c], []⟩
      | d :: ds => ((readString quote ds).push d).push c
    else (readString quote cs).push c

/-- The rest of a `url(…)` after its parenthesis. A parenthesis between quotes does not close it, and a
backslash counts between quotes only. -/
def readUrl : Option Char → Text → Lexeme
  | _, [] => ⟨.unterminated, [], []⟩
  | none, c :: cs =>
    if c = ')' then ⟨.url, [c], cs⟩
    else if c = '"' ∨ c = '\'' then (readUrl (some c) cs).push c
    else (readUrl none cs).push c
  | some quote, c :: cs =>
    if c = quote then (readUrl none cs).push c
    else if c = '\\' then
      match cs with
      | [] => ⟨.unterminated, [c], []⟩
      | d :: ds => ((readUrl (some quote) ds).push d).push c
    else (readUrl (some quote) cs).push c

/-- A name, or with a parenthesis directly after it a function or a `url(…)`. -/
def readName (t : Text) : Lexeme :=
  let name := t.takeWhile isNameChar
  match t.dropWhile isNameChar with
  | [] => ⟨.ident, name, []⟩
  | c :: cs =>
    if c = '(' then
      if Text.sameLetters name "url".toList then
        let body := readUrl none cs
        { body with text := name ++ c :: body.text }
      else ⟨.function, name ++ [c], cs⟩
    else ⟨.ident, name, c :: cs⟩

def readSigned (kind : Token.Kind) (sign : Char) (t : Text) : Lexeme :=
  let name := t.takeWhile isNameChar
  if name.isEmpty then ⟨.delim, [sign], t⟩ else ⟨kind, sign :: name, t.dropWhile isNameChar⟩

def readNumber (c : Char) (cs : Text) : Lexeme :=
  match Measure.read? (c :: cs) with
  | some (m, rest) => ⟨.number, m.text, rest⟩
  | none => ⟨.delim, [c], cs⟩

def startsNumeral : Text → Bool
  | [] => false
  | c :: cs => c.isDigit || (c == '.' && startsWith Char.isDigit cs)

/-- The kinds of token to which a minus that follows directly is a subtraction. -/
def endsOperand : Token.Kind → Bool
  | .number | .ident | .hash | .atKeyword | .rparen | .string => true
  | _ => false

/-- Whether a minus may be the sign of a numeral: a gap stands before it, or no operand does. -/
def mayBeSign (before : Option Token.Kind) (spaced : Bool) : Bool := spaced || !before.any endsOperand

def singleKind (c : Char) : Token.Kind :=
  if c = '{' then .lbrace
  else if c = '}' then .rbrace
  else if c = '(' then .lparen
  else if c = ')' then .rparen
  else if c = ':' then .colon
  else if c = ';' then .semicolon
  else if c = ',' then .comma
  else if c = '+' ∨ c = '-' ∨ c = '*' ∨ c = '/' then .operator
  else .delim

/-- The lexeme that begins with `c`. What a minus means depends on the token before it and on the gap. -/
def read (before : Option Token.Kind) (spaced : Bool) (c : Char) (cs : Text) : Lexeme :=
  if c = '"' ∨ c = '\'' then (readString c cs).push c
  else if c = '#' then readSigned .hash c cs
  else if c = '@' then readSigned .atKeyword c cs
  else if startsNumeral (c :: cs) then readNumber c cs
  else if c = '-' ∧ startsNumeral cs ∧ mayBeSign before spaced then readNumber c cs
  else if c = '-' ∧ startsWith (fun d => isNameStart d || d == '-') cs then readName (c :: cs)
  else if isNameStart c then readName (c :: cs)
  else ⟨singleKind c, [c], cs⟩

end Lexeme
end LessCss
