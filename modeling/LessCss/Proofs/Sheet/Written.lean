import LessCss.Proofs.Sheet.Lead
/-!
Sheets as they are written: syntax trees that keep every token.

A written construct has the tokens that spell it, `tokens`, and the syntax that these tokens stand for. Its
tokens may be placed and spaced in any way, except that nothing parts a `.` from the name after it.
-/
namespace LessCss.Written

/-- A token of a given kind. -/
abbrev Mark (k : Token.Kind) := { t : Token // t.kind = k }

/-- A value holds no token that ends a value, and no unterminated string. -/
structure Value where
  tokens : List Token
  ne_nil : tokens ≠ []
  fits : ∀ t ∈ tokens, Tokens.inValue t = true

/-- The two tokens of `! important`. -/
structure Importance where
  mark : Token
  word : Token
  spells : Tokens.isImportant [mark, word] = true

def Importance.tokens (i : Importance) : List Token := [i.mark, i.word]

structure Definition where
  name : Mark .atKeyword
  colon : Mark .colon
  value : Value
  stop : Mark .semicolon

def Definition.tokens (d : Definition) : List Token :=
  d.name.1 :: d.colon.1 :: (d.value.tokens ++ [d.stop.1])

def Definition.definition (d : Definition) : LessCss.Definition := ⟨d.name.1.name, d.value.tokens⟩

/-- The value of a declaration does not itself end in `! important`. -/
structure Declaration where
  name : Mark .ident
  colon : Mark .colon
  value : Value
  unmarked : ∀ init (i : Importance), value.tokens ≠ init ++ i.tokens
  importance : Option Importance
  stop : Mark .semicolon

def Declaration.tokens (d : Declaration) : List Token :=
  d.name.1 :: d.colon.1 :: (d.value.tokens ++ d.importance.elim [] Importance.tokens ++ [d.stop.1])

def Declaration.declaration (d : Declaration) : LessCss.Declaration :=
  ⟨d.name.1.text, d.value.tokens, d.importance.isSome⟩

/-- What an at-keyword is given. A colon in front would make a definition of it. -/
structure Params where
  tokens : List Token
  fits : ∀ t ∈ tokens, Tokens.isStop t = false
  head : ∀ t ∈ tokens.head?, t.kind ≠ .colon

structure Directive where
  name : Mark .atKeyword
  params : Params
  terminated : ∀ t ∈ params.tokens, t.kind ≠ .unterminated
  stop : Mark .semicolon

def Directive.tokens (d : Directive) : List Token := d.name.1 :: (d.params.tokens ++ [d.stop.1])

def Directive.directive (d : Directive) : LessCss.Directive :=
  ⟨d.name.1.name, Token.join d.params.tokens⟩

/-- The name of a mixin: a `.` and directly after it a name, or a hash. -/
inductive Name
  | dotted (dot : { t : Token // t.isDelim '.' = true })
      (word : { t : Token // t.kind = .ident ∧ t.spaced = false })
  | hash (h : Mark .hash)

def Name.tokens : Name → List Token
  | dotted dot word => [dot.1, word.1]
  | hash h => [h.1]

def Name.text : Name → Text
  | dotted _ word => '.' :: word.1.text
  | hash h => h.1.text

/-- The name of a mixin with the parenthesis after it. -/
inductive Opening
  | paren (name : Name) (lparen : Mark .lparen)
  | function (dot : { t : Token // t.isDelim '.' = true })
      (word : { t : Token // t.kind = .function ∧ t.spaced = false })

def Opening.tokens : Opening → List Token
  | paren name lparen => name.tokens ++ [lparen.1]
  | function dot word => [dot.1, word.1]

def Opening.text : Opening → Text
  | paren name _ => name.text
  | function _ word => '.' :: word.1.name

/-- An argument: its parentheses pair up, it holds no brace, and a `;` only between parentheses. -/
structure Argument where
  tokens : List Token
  ne_nil : tokens ≠ []
  paired : Tokens.depthAfter? Tokens.endsArguments 0 tokens = some 0
  undivided : Tokens.Undivided .semicolon Tokens.endsArguments 0 tokens

/-- A parameter: a variable, and after a colon the value it has otherwise. -/
structure Parameter where
  name : Mark .atKeyword
  fallback : Option (Mark .colon × Argument)

def Parameter.tokens (p : Parameter) : List Token :=
  p.name.1 :: p.fallback.elim [] fun f => f.1.1 :: f.2.tokens

/-- A parameter is written as an argument is. -/
def Parameter.argument (p : Parameter) : Argument where
  tokens := p.tokens
  ne_nil := by simp [Parameter.tokens]
  paired := by
    cases h : p.fallback with
    | none => simp [Parameter.tokens, h, Tokens.depthAfter?, Tokens.endsArguments, p.name.2]
    | some f =>
      simp [Parameter.tokens, h, Tokens.depthAfter?, Tokens.endsArguments, p.name.2, f.1.2, f.2.paired]
  undivided := by
    have hname : ∀ us, Tokens.depthAfter? Tokens.endsArguments 0 (p.name.1 :: us) =
        Tokens.depthAfter? Tokens.endsArguments 0 us := by
      simp [Tokens.depthAfter?, Tokens.endsArguments, p.name.2]
    cases h : p.fallback with
    | none =>
      simpa [Parameter.tokens, h] using (Tokens.Undivided.nil _).cons (by simp [p.name.2]) hname
    | some f =>
      have hcolon : ∀ us, Tokens.depthAfter? Tokens.endsArguments 0 (f.1.1 :: us) =
          Tokens.depthAfter? Tokens.endsArguments 0 us := by
        simp [Tokens.depthAfter?, Tokens.endsArguments, f.1.2]
      simpa [Parameter.tokens, h] using
        (f.2.undivided.cons (by simp [f.1.2]) hcolon).cons (by simp [p.name.2]) hname

def Parameter.parameter (p : Parameter) : LessCss.Parameter :=
  ⟨p.name.1.name, p.fallback.map fun f => f.2.tokens⟩

/-- Arguments with a `;` after each, without the parenthesis that closes them. -/
def argumentTokens (args : List (Argument × Mark .semicolon)) : List Token :=
  args.flatMap fun a => a.1.tokens ++ [a.2.1]

inductive Call
  | bare (name : Name) (importance : Option Importance) (stop : Mark .semicolon)
  | applied (opening : Opening) (args : List (Argument × Mark .semicolon)) (close : Mark .rparen)
      (importance : Option Importance) (stop : Mark .semicolon)

def Call.tokens : Call → List Token
  | bare name importance stop => name.tokens ++ importance.elim [] Importance.tokens ++ [stop.1]
  | applied opening args close importance stop =>
    opening.tokens ++ argumentTokens args ++ close.1 :: (importance.elim [] Importance.tokens ++ [stop.1])

def Call.call (c : Call) : LessCss.Call :=
  let position := (Tokens.next c.tokens).position
  match c with
  | bare name importance _ => ⟨name.text, [], importance.isSome, position⟩
  | applied opening args _ importance _ =>
    ⟨opening.text, args.map (·.1.tokens), importance.isSome, position⟩

/-- Whether a token may stand in a selector. -/
def inSelector (t : Token) : Bool :=
  match t.kind with
  | .lbrace | .comma | .atKeyword | .semicolon | .unterminated | .url | .rbrace | .eof => false
  | _ => !t.isDelim '!'

structure Selector where
  tokens : List Token
  ne_nil : tokens ≠ []
  fits : ∀ t ∈ tokens, inSelector t = true

def selectorTokens (first : Selector) (others : List (Mark .comma × Selector)) : List Token :=
  first.tokens ++ others.flatMap fun s => s.1.1 :: s.2.tokens

/-- The selectors of a rule. The name of a mixin with empty parentheses would define that mixin. -/
structure Selectors where
  first : Selector
  others : List (Mark .comma × Selector)
  not_mixin : ∀ (opening : Opening) (commas : List (Mark .comma)) (close : Mark .rparen),
    selectorTokens first others ≠ opening.tokens ++ commas.map (·.1) ++ [close.1]

def Selectors.tokens (s : Selectors) : List Token := selectorTokens s.first s.others

def Selectors.texts (s : Selectors) : List Text :=
  Token.join s.first.tokens :: s.others.map fun o => Token.join o.2.tokens

/-- What stands before the `{` of a block. -/
inductive Header
  | rule (s : Selectors)
  | atRule (name : Mark .atKeyword) (params : Params)
  | mixin (opening : Opening) (params : List (Parameter × Mark .semicolon)) (close : Mark .rparen)

def Header.tokens : Header → List Token
  | rule s => s.tokens
  | atRule name params => name.1 :: params.tokens
  | mixin opening params close =>
    opening.tokens ++ argumentTokens (params.map fun p => (p.1.argument, p.2)) ++ [close.1]

def Header.header : Header → LessCss.Header
  | rule s => .rule s.texts
  | atRule name params => .atRule name.1.name (Token.join params.tokens)
  | mixin opening params _ => .mixin opening.text (params.map (·.1.parameter))

/-- What a block may hold. -/
inductive Item
  | declaration (d : Declaration)
  | definition (d : Definition)
  | call (c : Call)
  | block (h : Header) (lbrace : Mark .lbrace) (body : List Item) (rbrace : Mark .rbrace)

namespace Item

mutual

def tokens : Item → List Token
  | declaration d => d.tokens
  | definition d => d.tokens
  | call c => c.tokens
  | block h lbrace body rbrace => h.tokens ++ lbrace.1 :: (tokensAll body ++ [rbrace.1])

def tokensAll : List Item → List Token
  | [] => []
  | i :: is => tokens i ++ tokensAll is

end

mutual

/-- The syntax that a written item stands for. -/
def item : Item → LessCss.Item
  | declaration d => .declaration d.declaration
  | definition d => .definition d.definition
  | call c => .call c.call
  | block h _ body _ => h.header.toItem (items body)

def items : List Item → List LessCss.Item
  | [] => []
  | i :: is => item i :: items is

end

mutual

/-- The number of blocks that are nested in an item, itself included. -/
def depth : Item → Nat
  | block _ _ body _ => depthAll body + 1
  | _ => 0

def depthAll : List Item → Nat
  | [] => 0
  | i :: is => max (depth i) (depthAll is)

end

end Item

/-- What a sheet may hold. -/
inductive Statement
  | directive (d : Directive)
  | definition (d : Definition)
  | call (c : Call)
  | block (h : Header) (lbrace : Mark .lbrace) (body : List Item) (rbrace : Mark .rbrace)

namespace Statement

def tokens : Statement → List Token
  | directive d => d.tokens
  | definition d => d.tokens
  | call c => c.tokens
  | block h lbrace body rbrace => h.tokens ++ lbrace.1 :: (Item.tokensAll body ++ [rbrace.1])

/-- The syntax that a written statement stands for. -/
def statement : Statement → LessCss.Statement
  | directive d => .directive d.directive
  | definition d => .definition d.definition
  | call c => .call c.call
  | block h _ body _ => h.header.toStatement (Item.items body)

def depth : Statement → Nat
  | block _ _ body _ => Item.depthAll body + 1
  | _ => 0

end Statement

/-- A sheet whose blocks are nested no deeper than the limit. -/
structure Sheet where
  statements : List Statement
  shallow : ∀ s ∈ statements, s.depth ≤ maxNesting

def Sheet.tokens (s : Sheet) : List Token := s.statements.flatMap Statement.tokens

def Sheet.sheet (s : Sheet) : LessCss.Sheet := s.statements.map Statement.statement

end LessCss.Written
