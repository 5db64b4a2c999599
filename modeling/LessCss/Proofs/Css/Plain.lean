import LessCss.Compile
import LessCss.Sheet
/-!
Plain style sheets: those that spell their values, selectors and parameters in words, numbers and strings alone.

Every part of a plain sheet carries the proof that it is well formed, so a plain sheet is what its type says.
`Plain.Sheet.css` is the style sheet that it stands for.
-/
namespace LessCss.Plain

/-- One part at least, and the parts after it. -/
structure Row (α : Type) where
  first : α
  others : List α

namespace Row

variable {α β : Type}

def map (f : α → β) (r : Row α) : Row β := ⟨f r.first, r.others.map f⟩

def toList (r : Row α) : List α := r.first :: r.others

/-- The parts one after the other, with `glue` between neighbours. -/
def text (glue : Text) (text : α → Text) (r : Row α) : Text :=
  text r.first ++ r.others.flatMap fun a => glue ++ text a

end Row

/-- A letter, and letters, digits and hyphens after it. -/
structure Word where
  first : Char
  others : Text
  first_isAlpha : first.isAlpha = true
  others_fit : ∀ c ∈ others, c.isAlphanum = true ∨ c = '-'

def Word.text (w : Word) : Text := w.first :: w.others

/-- A word from its characters, which are looked at one by one. -/
def Word.ofChars (first : Char) (others : Text)
    (h : (first.isAlpha && others.all fun c => c.isAlphanum || c == '-') = true) : Word where
  first := first
  others := others
  first_isAlpha := ((Bool.and_eq_true _ _).mp h).1
  others_fit c hc := by
    have hall := List.all_eq_true.mp ((Bool.and_eq_true _ _).mp h).2 c hc
    rw [Bool.or_eq_true, beq_iff_eq] at hall
    exact hall

/-- What stands between the spaces of a selector. -/
inductive Compound
  | name (w : Word)
  | dotted (w : Word)
  | hash (w : Word)
  | colon (w v : Word)

def Compound.text : Compound → Text
  | name w => w.text
  | dotted w => '.' :: w.text
  | hash w => '#' :: w.text
  | colon w v => w.text ++ ':' :: v.text

abbrev Selector := Row Compound

def selectorText (s : Selector) : Text := s.text [' '] Compound.text

/-- The digits of a number, one at least. -/
structure Digits where
  text : Text
  ne_nil : text ≠ []
  fit : ∀ c ∈ text, c.isDigit = true

structure Letters where
  text : Text
  fit : ∀ c ∈ text, c.isAlpha = true

/-- A unit is a percent sign or letters, of which there may be none. -/
inductive Measurement
  | percent
  | letters (l : Letters)

def Measurement.text : Measurement → Text
  | percent => ['%']
  | letters l => l.text

structure Number where
  negative : Bool
  whole : Digits
  fraction : Option Digits
  unit : Measurement

def Number.text (n : Number) : Text :=
  (if n.negative then ['-'] else []) ++ n.whole.text ++ (n.fraction.elim [] fun f => '.' :: f.text) ++ n.unit.text

/-- What stands between double quotes. -/
structure Quoted where
  body : Text
  fit : ∀ c ∈ body, Text.isBlank c = false ∧ c ≠ '"' ∧ c ≠ '\\'

def Quoted.text (q : Quoted) : Text := '"' :: (q.body ++ ['"'])

inductive Item
  | word (w : Word)
  | hash (w : Word)
  | number (n : Number)
  | string (q : Quoted)

def Item.text : Item → Text
  | word w => w.text
  | hash w => '#' :: w.text
  | number n => n.text
  | string q => q.text

abbrev Group := Row Item

def groupText (g : Group) : Text := g.text [' '] Item.text

/-- Groups of items. -/
abbrev Value := Row Group

def valueText (v : Value) : Text := v.text [',', ' '] groupText

/-- The parameters of an at-rule or a directive, of which there may be none. -/
abbrev Params := Option Value

def paramsText (p : Params) : Text := p.elim [] valueText

structure Declaration where
  name : Word
  value : Value
  important : Bool

def Declaration.css (d : Declaration) : Css.Property := ⟨d.name.text, valueText d.value, d.important⟩

inductive Node
  | rule (selectors : Row Selector) (declarations : Row Declaration)
  | atRule (name : Word) (params : Params) (declarations : List Declaration) (children : List Node)

namespace Node

mutual

/-- The node that a plain node stands for. -/
def css : Node → Css.Node
  | rule selectors declarations =>
    .rule (selectors.map selectorText).toList (declarations.map Declaration.css).toList
  | atRule name params declarations children =>
    .atRule name.text (paramsText params) (declarations.map Declaration.css) (cssAll children)

def cssAll : List Node → List Css.Node
  | [] => []
  | n :: ns => css n :: cssAll ns

end

mutual

/-- The number of blocks that are nested in a node, itself included. -/
def depth : Node → Nat
  | rule .. => 1
  | atRule _ _ _ children => depthAll children + 1

def depthAll : List Node → Nat
  | [] => 0
  | n :: ns => max (depth n) (depthAll ns)

end

end Node

inductive Statement
  | directive (name : Word) (params : Params)
  | node (n : Node)

namespace Statement

def css : Statement → Css.Node
  | directive name params => .directive name.text (paramsText params)
  | node n => n.css

def depth : Statement → Nat
  | directive .. => 0
  | node n => n.depth

end Statement

/-- A plain sheet whose blocks are nested no deeper than the limit. -/
structure Sheet where
  statements : List Statement
  shallow : ∀ s ∈ statements, s.depth ≤ maxNesting

def Sheet.css (s : Sheet) : List Css.Node := s.statements.map Statement.css

end LessCss.Plain
