import LessCss.Token
/-!
The syntax of a style sheet.

A sheet is a list of statements and a block a list of items. Values stay rows of tokens, since what a value
means depends on where it is used.
-/
namespace LessCss

structure Declaration where
  name : Text
  value : List Token
  important : Bool
deriving DecidableEq, Repr

structure Definition where
  name : Text
  value : List Token
deriving DecidableEq, Repr

/-- An at-statement without a block, such as `@charset "utf-8";`. -/
structure Directive where
  name : Text
  params : Text
deriving DecidableEq, Repr

/-- A parameter of a mixin and the value it has when a call leaves it out. -/
structure Parameter where
  name : Text
  fallback : Option (List Token)
deriving DecidableEq, Repr

structure Call where
  name : Text
  args : List (List Token)
  important : Bool
  position : Position
deriving DecidableEq, Repr

inductive Item
  | declaration (d : Declaration)
  | definition (d : Definition)
  | call (c : Call)
  | rule (selectors : List Text) (body : List Item)
  | atRule (name params : Text) (body : List Item)
  | mixin (name : Text) (params : List Parameter) (body : List Item)
deriving Repr

inductive Statement
  | directive (d : Directive)
  | definition (d : Definition)
  | call (c : Call)
  | rule (selectors : List Text) (body : List Item)
  | atRule (name params : Text) (body : List Item)
  | mixin (name : Text) (params : List Parameter) (body : List Item)
deriving Repr

/-- The item that a statement would be inside a block. A directive would be none. -/
def Statement.toItem? : Statement → Option Item
  | directive _ => none
  | definition d => some (.definition d)
  | call c => some (.call c)
  | rule selectors body => some (.rule selectors body)
  | atRule name params body => some (.atRule name params body)
  | mixin name params body => some (.mixin name params body)

abbrev Sheet := List Statement

/-- The deepest nesting of blocks in a sheet, and of parentheses and minus signs in a value. -/
def maxNesting : Nat := 128

end LessCss
