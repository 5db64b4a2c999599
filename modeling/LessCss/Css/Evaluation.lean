import LessCss.Scope
/-!
What a sheet evaluates to: a style sheet without nesting of rules, variables or mixins.

A body yields properties, which belong to the rule around it, and nodes, which come after that rule. A rule
inside a rule yields a node with the selectors of both. An at-rule inside a rule yields a node that holds its
properties under the selectors of that rule.

A call yields what the mixins of its name yield in the scopes of the call. `expand` is made from the names
that may still be called. A name that is being expanded is not among them, so a mixin that leads back to
itself is noticed and expansion ends.
-/
namespace LessCss

namespace Css

/-- A property with the text of its value. -/
structure Property where
  name : Text
  value : Text
  important : Bool
deriving DecidableEq, Repr

inductive Node
  | rule (selectors : List Text) (properties : List Property)
  | atRule (name params : Text) (properties : List Property) (children : List Node)
  | directive (name params : Text)
deriving Repr

/-- A selector inside a rule with selector `parent`. Every `&` stands for the parent. Without one the parent comes
first. -/
def nestSelector (parent child : Text) : Text :=
  if child.contains '&' then Text.trim (Text.substitute '&' parent child)
  else Text.trim parent ++ ' ' :: Text.trim child

/-- The selectors of a rule inside rules with the given selectors, parent by parent. -/
def nestSelectors (parents children : List Text) : List Text :=
  if parents.isEmpty then children else parents.flatMap fun p => children.map (nestSelector p)

end Css

structure Yield where
  properties : List Css.Property
  nodes : List Css.Node
deriving Repr

namespace Yield

def none : Yield := ⟨[], []⟩

def append (a b : Yield) : Yield := ⟨a.properties ++ b.properties, a.nodes ++ b.nodes⟩

instance : Append Yield := ⟨append⟩

def important (y : Yield) : Yield :=
  { y with properties := y.properties.map fun p => { p with important := true } }

/-- The nodes of a rule with this body. A rule without properties of its own is left out. -/
def underRule (selectors : List Text) (y : Yield) : List Css.Node :=
  (if y.properties.isEmpty then [] else [.rule selectors y.properties]) ++ y.nodes

/-- The node of an at-rule with this body, inside rules with the given selectors or outside of any. -/
def underAtRule (name params : Text) (selectors : List Text) (y : Yield) : Css.Node :=
  if selectors.isEmpty then .atRule name params y.properties y.nodes
  else .atRule name params [] (y.underRule selectors)

end Yield

namespace Mixin

/-- Whether a mixin can be called with this many arguments. -/
def accepts (count : Nat) : Mixin → Bool
  | plain _ => count = 0
  | parametric params _ => count ≤ params.length && (params.drop count).all (·.fallback.isSome)

def body : Mixin → List Item
  | plain body => body
  | parametric _ body => body

/-- Binds the parameters that a call leaves out, in order. Each value may refer to the parameters before it. -/
def bindFallbacks (outer : Scopes) : Scope → List Parameter → Except Diagnostic (Scope × List Value)
  | scope, [] => .ok (scope, [])
  | scope, p :: ps =>
    match p.fallback with
    | none => bindFallbacks outer scope ps
    | some value => do
      let v ← Scopes.evaluate (scope :: outer) value
      let (scope, vs) ← bindFallbacks outer (scope.bind p.name v) ps
      .ok (scope, v :: vs)

def bindArguments (params : List Parameter) (args : List Value) : Scope :=
  (params.zip args).foldl (fun s (p, v) => s.bind p.name v) .empty

/-- The scope of the parameters of a call. The name `arguments` stands for all their values. -/
def parameterScope (outer : Scopes) (params : List Parameter) (args : List Value) : Except Diagnostic Scope := do
  let (scope, vs) ← bindFallbacks outer (bindArguments params args) (params.drop args.length)
  .ok (scope.bind "arguments".toList (.list (args ++ vs) .space))

def bodyScopes (outer : Scopes) (args : List Value) : Mixin → Except Diagnostic Scopes
  | plain body => .ok (.ofItems body :: outer)
  | parametric params body => do .ok (.ofItems body :: (← parameterScope outer params args) :: outer)

end Mixin

/-- What calls yield, given the scopes and the selectors around them. -/
abbrev Expansion := Scopes → List Text → Call → Except Diagnostic Yield

def Declaration.evaluate (scopes : Scopes) (d : Declaration) : Except Diagnostic Css.Property :=
  (scopes.evaluate d.value).map fun v => ⟨d.name, v.render, d.important⟩

namespace Item

mutual

def yield (calls : Expansion) (scopes : Scopes) (selectors : List Text) : Item → Except Diagnostic Yield
  | .declaration d => (d.evaluate scopes).map fun p => ⟨[p], []⟩
  | .definition _ => .ok .none
  | .call c => calls scopes selectors c
  | .rule own body => do
    let selectors := Css.nestSelectors selectors own
    .ok ⟨[], (← yieldAll calls (.ofItems body :: scopes) selectors body).underRule selectors⟩
  | .atRule name params body => do
    let y ← yieldAll calls (.ofItems body :: scopes) selectors body
    .ok ⟨[], [y.underAtRule name params selectors]⟩
  | .mixin .. => .ok .none

def yieldAll (calls : Expansion) (scopes : Scopes) (selectors : List Text) : List Item → Except Diagnostic Yield
  | [] => .ok .none
  | i :: is => do
    let y ← yield calls scopes selectors i
    .ok (y ++ (← yieldAll calls scopes selectors is))

end

mutual

/-- The names of the mixins that an item defines, at any depth. -/
def mixinNames (i : Item) : List Text :=
  ((Scope.mixin? i).map (·.1)).toList ++
    match i with
    | .rule _ body => mixinNamesAll body
    | .atRule _ _ body => mixinNamesAll body
    | .mixin _ _ body => mixinNamesAll body
    | _ => []

def mixinNamesAll : List Item → List Text
  | [] => []
  | i :: is => mixinNames i ++ mixinNamesAll is

end

end Item

/-- What mixins yield one after the other when they are called with the same arguments. -/
def Mixin.yieldAll (calls : Expansion) (scopes : Scopes) (selectors : List Text) (args : List Value) :
    List Mixin → Except Diagnostic Yield
  | [] => .ok .none
  | m :: ms => do
    let y ← Item.yieldAll calls (← m.bodyScopes scopes args) selectors m.body
    .ok (y ++ (← yieldAll calls scopes selectors args ms))

def without (name : Text) (names : List Text) : List Text := names.filter (· ≠ name)

theorem without_length {name : Text} {names : List Text} (h : name ∈ names) :
    (without name names).length < names.length :=
  List.length_filter_lt_length_iff_exists.2 ⟨name, h, by simp⟩

/-- What a call yields when only the names `callable` may be called. All mixins of the name that accept the number
of arguments contribute. -/
def expand (callable : List Text) : Expansion := fun scopes selectors c =>
  match scopes.mixinsNamed c.name with
  | [] => .error ((Fault.undefinedMixin c.name).blame c.position)
  | mixins =>
    if _h : c.name ∈ callable then do
      let args ← c.args.mapM scopes.evaluate
      match mixins.filter (·.accepts args.length) with
      | [] => .error ((Fault.noMatchingMixin c.name).blame c.position)
      | mixins =>
        let y ← Mixin.yieldAll (expand (without c.name callable)) scopes selectors args mixins
        .ok (if c.important then y.important else y)
    else .error ((Fault.recursiveMixin c.name).blame c.position)
termination_by callable.length
decreasing_by exact without_length _h

namespace Sheet

def items (s : Sheet) : List Item := s.filterMap Statement.toItem?

/-- What a statement of a sheet evaluates to. A call may not yield properties here. -/
def nodesOf (calls : Expansion) (scopes : Scopes) : Statement → Except Diagnostic (List Css.Node)
  | .directive d => .ok [.directive d.name d.params]
  | .call c => do
    let y ← calls scopes [] c
    if y.properties.isEmpty then .ok y.nodes else .error (Fault.propertyOutsideRule.blame c.position)
  | .definition _ => .ok []
  | .rule selectors body => (Item.yield calls scopes [] (.rule selectors body)).map (·.nodes)
  | .atRule name params body => (Item.yield calls scopes [] (.atRule name params body)).map (·.nodes)
  | .mixin .. => .ok []

def evaluate (s : Sheet) : Except Diagnostic (List Css.Node) :=
  let calls := expand (Item.mixinNamesAll s.items)
  (s.mapM (nodesOf calls [.ofItems s.items])).map List.flatten

end Sheet
end LessCss
