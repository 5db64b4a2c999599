import LessCss.Token.Stream
import LessCss.Sheet.Reader
import LessCss.Css.Evaluation
/-!
From the text of a sheet to the text of a style sheet.

The pretty form of a style sheet gives every property a line of its own. The minified form has no line breaks and no
space that can be left out. Both leave out rules without properties.
-/
namespace LessCss

namespace Css

/-- The two forms of text. -/
inductive Layout
  | pretty
  | minified
deriving DecidableEq, Repr

namespace Property

def pretty (p : Property) : Text :=
  p.name ++ ": ".toList ++ p.value ++ (if p.important then " !important".toList else []) ++ [';']

def minified (p : Property) : Text :=
  p.name ++ ':' :: Text.collapse p.value ++ if p.important then "!important".toList else []

end Property

/-- A name after an `@`, and the parameters after a space if there are any. -/
def atHead (name params : Text) : Text := '@' :: name ++ if params.isEmpty then [] else ' ' :: params

def directive (name params : Text) : Text := atHead name params ++ [';']

/-- The space before a line that is `level` blocks deep. -/
def indent (level : Nat) : Text := List.replicate (2 * level) ' '

/-- A line of the pretty form. -/
def line (level : Nat) (t : Text) : Text := indent level ++ t ++ ['\n']

def prettyProperties (level : Nat) (ps : List Property) : Text := ps.flatMap fun p => line level p.pretty

def minifiedProperties (ps : List Property) : Text := Text.join [';'] (ps.map Property.minified)

namespace Node

mutual

def pretty (level : Nat) : Node → Text
  | .rule selectors properties =>
    if properties.isEmpty then []
    else line level (Text.join ", ".toList selectors ++ " \x7b".toList) ++
      prettyProperties (level + 1) properties ++ line level ['}']
  | .atRule name params properties children =>
    line level (atHead name params ++ " \x7b".toList) ++ prettyProperties (level + 1) properties ++
      prettyAll (level + 1) children ++ line level ['}']
  | .directive name params => line level (Css.directive name params)

def prettyAll (level : Nat) : List Node → Text
  | [] => []
  | n :: ns => pretty level n ++ prettyAll level ns

end

mutual

def minified : Node → Text
  | .rule selectors properties =>
    if properties.isEmpty then []
    else Text.join [','] selectors ++ '{' :: minifiedProperties properties ++ ['}']
  | .atRule name params properties children =>
    '@' :: name ++ (if params.isEmpty then [] else ' ' :: Text.collapse params) ++
      '{' :: minifiedProperties properties ++ minifiedAll children ++ ['}']
  | .directive name params => Css.directive name params

def minifiedAll : List Node → Text
  | [] => []
  | n :: ns => minified n ++ minifiedAll ns

end

end Node

/-- The text of a style sheet. -/
def render : Layout → List Node → Text
  | .pretty, ns => Node.prettyAll 0 ns
  | .minified, ns => Node.minifiedAll ns

end Css

/-- The syntax of a source text. -/
def parse (source : Text) : Except Diagnostic Sheet := Sheet.ofTokens (Token.ofText source)

/-- What a source text evaluates to. -/
def evaluate (source : Text) : Except Diagnostic (List Css.Node) := do (← parse source).evaluate

/-- The style sheet of a source text. The first fault ends it. -/
def compile (layout : Css.Layout) (source : Text) : Except Diagnostic Text :=
  (evaluate source).map (Css.render layout)

end LessCss
