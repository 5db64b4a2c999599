import LessCss.Sheet
import LessCss.Diagnostic
import LessCss.Token
/-!
What comes next among the tokens of a sheet or of a block.

`lead?` settles everything that may stand in both: a definition of a variable, a call, and whatever opens a
block. It gives `none` for the rest, which a block reads as a declaration and a sheet as a directive.
Tokens are read from the front of a list that ends with `eof`.
-/
namespace LessCss

inductive Header
  | rule (selectors : List Text)
  | atRule (name params : Text)
  | mixin (name : Text) (params : List Parameter)
deriving DecidableEq, Repr

namespace Header

def toItem (body : List Item) : Header → Item
  | rule selectors => .rule selectors body
  | atRule name params => .atRule name params body
  | mixin name params => .mixin name params body

def toStatement (body : List Item) : Header → Statement
  | rule selectors => .rule selectors body
  | atRule name params => .atRule name params body
  | mixin name params => .mixin name params body

end Header

/-- What may stand in a sheet as well as in a block. -/
inductive Lead
  | definition (d : Definition)
  | call (c : Call)
  | opened (h : Header)
deriving DecidableEq, Repr

namespace Tokens

def next (ts : List Token) : Token := ts.headD ⟨.eof, [], .start, false⟩

/-- The tokens at which a value ends and at which the search for a `{` stops. -/
def isStop (t : Token) : Bool := t.kind = .lbrace ∨ t.kind = .semicolon ∨ t.kind = .rbrace ∨ t.kind = .eof

def opensBlock (ts : List Token) : Bool := (ts.find? isStop).any (·.kind = .lbrace)

def skipSemicolon : List Token → List Token
  | [] => []
  | t :: ts => if t.kind = .semicolon then ts else t :: ts

/-- The tokens of a value, which holds no unterminated string, and what follows them. -/
def readValue (ts : List Token) : Except Diagnostic (List Token × List Token) :=
  let value := ts.takeWhile (!isStop ·)
  match value.find? (·.kind = .unterminated) with
  | some t => .error (Fault.unterminatedString.blame t.position)
  | none => .ok (value, ts.dropWhile (!isStop ·))

def isImportant : List Token → Bool
  | [mark, word] => mark.isDelim '!' && word.kind == .ident && Text.sameLetters word.text "important".toList
  | _ => false

/-- A value without `! important` at its end, and whether it had one. -/
def takeImportant (value : List Token) : List Token × Bool :=
  let cut := value.length - 2
  if isImportant (value.drop cut) then (value.take cut, true) else (value, false)

def endsArguments (t : Token) : Bool := t.kind = .lbrace ∨ t.kind = .rbrace ∨ t.kind = .eof

/-- The pieces between the separators outside parentheses, empty ones included. -/
def pieces (separator : Token.Kind) : Nat → List Token → List (List Token)
  | _, [] => [[]]
  | depth, t :: ts =>
    if t.kind = separator ∧ depth = 0 then [] :: pieces separator 0 ts
    else
      let depth := match t.kind with
        | .lparen | .function => depth + 1
        | .rparen => depth - 1
        | _ => depth
      match pieces separator depth ts with
      | [] => [[t]]
      | p :: ps => (t :: p) :: ps

/-- The arguments in a row of tokens. A `;` anywhere makes `;` the separator, else `,` is. Empty arguments
do not count. -/
def arguments (ts : List Token) : List (List Token) :=
  let separator := if ts.any (·.kind = .semicolon) then .semicolon else .comma
  (pieces separator 0 ts).filter (!·.isEmpty)

end Tokens

/-- The name of a mixin, its arguments if it has parentheses, and the tokens after it. -/
structure Signature where
  name : Text
  args : Option (List Token)
  rest : List Token
deriving DecidableEq, Repr

namespace Signature

open Tokens

/-- A signature with the given name whose parentheses have just been opened. -/
def opened (name : Text) (ts : List Token) : Option Signature :=
  (closeParen? endsArguments 0 ts).map fun (args, rest) => ⟨name, some args, rest⟩

def named (name : Text) : List Token → Option Signature
  | [] => some ⟨name, none, []⟩
  | t :: ts => if t.kind = .lparen then opened name ts else some ⟨name, none, t :: ts⟩

/-- The signature at the head of the tokens: a `.` and directly after it a name, or a hash. -/
def read? : List Token → Option Signature
  | [] => none
  | t :: ts =>
    if t.isDelim '.' then
      let n := next ts
      if n.spaced then none
      else match n.kind with
        | .ident => named ('.' :: n.text) ts.tail
        | .function => opened ('.' :: n.name) ts.tail
        | _ => none
    else if t.kind = .hash then named t.text ts
    else none

/-- A definition has parentheses with nothing but parameters, and a block. -/
def isDefinition (s : Signature) : Bool :=
  match s.args with
  | none => false
  | some args => (next s.rest).kind = .lbrace && (arguments args).all fun a => (next a).kind = .atKeyword

def isCall (s : Signature) : Bool :=
  let n := next s.rest
  n.kind = .semicolon || n.kind = .rbrace || n.kind = .eof || isImportant (s.rest.take 2)

/-- A parameter: a variable, and after a colon the value it has otherwise. -/
def parameter (ts : List Token) : Except Diagnostic Parameter :=
  let v := next ts
  if v.kind ≠ .atKeyword then .error (Fault.parameterNotVariable.blame v.position)
  else match ts.tail with
    | [] => .ok ⟨v.name, none⟩
    | c :: fallback =>
      if c.kind ≠ .colon then .error ((Fault.unexpectedInParameters c.text).blame c.position)
      else if fallback.isEmpty then .error ((Fault.missingDefault v.name).blame c.position)
      else .ok ⟨v.name, some fallback⟩

def argumentList (s : Signature) : List (List Token) := arguments (s.args.getD [])

end Signature

namespace Tokens

/-- The selectors up to a `{`, and the tokens after it. The row `group` is the part of the current selector that
has been read. -/
def readSelectors (group : List Token) : List Token → Except Diagnostic (List Text × List Token)
  | [] => .error ((Fault.unexpectedInSelector []).blame (next []).position)
  | t :: ts =>
    match t.kind with
    | .lbrace =>
      if group.isEmpty then .error (Fault.missingSelector.blame t.position) else .ok ([Token.join group], ts)
    | .comma =>
      if group.isEmpty then .error (Fault.emptySelector.blame t.position)
      else do
        let (selectors, rest) ← readSelectors [] ts
        .ok (Token.join group :: selectors, rest)
    | .atKeyword | .semicolon | .unterminated | .url | .rbrace | .eof =>
      .error ((Fault.unexpectedInSelector t.text).blame t.position)
    | _ =>
      if t.isDelim '!' then .error ((Fault.unexpectedInSelector ['!']).blame t.position)
      else readSelectors (group ++ [t]) ts

def readDefinition (t : Token) (ts : List Token) : Except Diagnostic (Definition × List Token) := do
  let (value, rest) ← readValue ts
  if value.isEmpty ∨ (next rest).kind = .lbrace then
    .error ((Fault.invalidVariable t.name).blame (next rest).position)
  else .ok (⟨t.name, value⟩, skipSemicolon rest)

def readDeclaration (ts : List Token) : Except Diagnostic (Declaration × List Token) := do
  let property := next ts
  if property.kind ≠ .ident then .error ((Fault.missingProperty property.text).blame property.position)
  else
    let colon := next ts.tail
    if colon.kind ≠ .colon then .error ((Fault.missingColon colon.text).blame colon.position)
    else do
      let (value, rest) ← readValue ts.tail.tail
      let (value, important) := takeImportant value
      if value.isEmpty then .error ((Fault.missingValue property.text).blame (next rest).position)
      else .ok (⟨property.text, value, important⟩, skipSemicolon rest)

def readDirective (t : Token) (ts : List Token) : Except Diagnostic (Directive × List Token) := do
  let (params, rest) ← readValue ts
  .ok (⟨t.name, Token.join params⟩, skipSemicolon rest)

def readAtHeader (t : Token) (ts : List Token) : Header × List Token :=
  (.atRule t.name (Token.join (ts.takeWhile (·.kind ≠ .lbrace))), (ts.dropWhile (·.kind ≠ .lbrace)).tail)

def readCall (position : Position) (s : Signature) : Call × List Token :=
  let important := (next s.rest).isDelim '!'
  let rest := if important then s.rest.drop 2 else s.rest
  (⟨s.name, s.argumentList, important, position⟩, skipSemicolon rest)

def ruleHeader? (ts : List Token) : Except Diagnostic (Option (Lead × List Token)) :=
  if opensBlock ts then (readSelectors [] ts).map fun (selectors, rest) => some (.opened (.rule selectors), rest)
  else .ok none

/-- The definition, call or header at the head of the tokens, and the tokens after it. -/
def lead? (ts : List Token) : Except Diagnostic (Option (Lead × List Token)) :=
  let t := next ts
  if t.kind = .atKeyword then
    if (next ts.tail).kind = .colon then
      (readDefinition t ts.tail.tail).map fun (d, rest) => some (.definition d, rest)
    else if opensBlock ts.tail then
      let (header, rest) := readAtHeader t ts.tail
      .ok (some (.opened header, rest))
    else .ok none
  else match Signature.read? ts with
    | none => ruleHeader? ts
    | some s =>
      if s.isDefinition then
        (s.argumentList.mapM Signature.parameter).map fun params =>
          some (.opened (.mixin s.name params), s.rest.tail)
      else if s.isCall then
        let (c, rest) := readCall t.position s
        .ok (some (.call c, rest))
      else ruleHeader? ts

end Tokens
end LessCss
