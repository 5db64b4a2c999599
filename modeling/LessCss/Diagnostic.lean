import LessCss.Position
/-!
Why a style sheet is rejected.

A `Fault` is the cause, with what it is about. A `Diagnostic` is a fault and the place it is blamed on.
Its `Report` is what is shown: one of four kinds, a detail, and the place, from which `Report.message` makes
the line of text.
-/
namespace LessCss

/-- The four kinds of report. -/
inductive Fault.Kind
  | undefinedReference
  | runtime
  | unbalanced
  | malformed
deriving DecidableEq, Repr

/-- The cause of a rejection. -/
inductive Fault
  -- names without a definition
  | undefinedVariable (name : Text)
  | undefinedMixin (name : Text)
  -- evaluation
  | divisionByZero
  | invalidOperands
  | recursiveVariable (name : Text)
  | recursiveMixin (name : Text)
  | noMatchingMixin (name : Text)
  | propertyOutsideRule
  -- braces
  | unexpectedClose
  | missingClose
  -- items
  | blocksTooDeep
  | declarationOutsideRule
  | invalidVariable (name : Text)
  | emptySelector
  | missingSelector
  | unexpectedInSelector (text : Text)
  | unexpectedInBlock (text : Text)
  | missingProperty (found : Text)
  | missingColon (found : Text)
  | missingValue (name : Text)
  | unterminatedString
  | parameterNotVariable
  | missingDefault (name : Text)
  | unexpectedInParameters (text : Text)
  -- values
  | valueTooDeep
  | missingOperand
  | invalidNumber (text : Text)
  | unexpectedInValue (text : Text)
  | missingParen
  | missingCallParen (text : Text)
  | notParen (found : Text)
  | missingEscapedString
deriving DecidableEq, Repr

namespace Fault

/-- The kind under which a fault is reported. Only the two brace faults are `unbalanced`. -/
def kind : Fault → Kind
  | undefinedVariable _ | undefinedMixin _ => .undefinedReference
  | divisionByZero | invalidOperands | recursiveVariable _ | recursiveMixin _ | noMatchingMixin _
  | propertyOutsideRule => .runtime
  | unexpectedClose | missingClose => .unbalanced
  | _ => .malformed

def quoted (t : Text) : String := "`" ++ String.ofList t ++ "`"

def detail : Fault → String
  | undefinedVariable name => "variable @" ++ String.ofList name
  | undefinedMixin name => String.ofList name
  | divisionByZero => "Division by zero"
  | invalidOperands => "Operation on an invalid type"
  | recursiveVariable name => "Recursive variable definition for @" ++ String.ofList name
  | recursiveMixin name => String.ofList name ++ " is called recursively"
  | noMatchingMixin name => "No matching definition was found for " ++ quoted name
  | propertyOutsideRule => "Properties must be inside selector blocks"
  | unexpectedClose => "Unexpected `\x7d`"
  | missingClose => "Missing closing `\x7d`"
  | blocksTooDeep => "blocks are nested too deeply"
  | declarationOutsideRule => "declarations must appear inside a rule block"
  | invalidVariable name => "invalid value for variable @" ++ String.ofList name
  | emptySelector => "empty selector"
  | missingSelector => "missing selector"
  | unexpectedInSelector text => "unexpected " ++ quoted text ++ " in selector"
  | unexpectedInBlock text => "unexpected " ++ quoted text ++ " inside a block"
  | missingProperty found => "expected property name, found " ++ quoted found
  | missingColon found => "expected `:`, found " ++ quoted found
  | missingValue name => "missing value for " ++ quoted name
  | unterminatedString => "unterminated string"
  | parameterNotVariable => "mixin parameters must be variables"
  | missingDefault name => "missing default for @" ++ String.ofList name
  | unexpectedInParameters text => "unexpected " ++ quoted text ++ " in mixin parameters"
  | valueTooDeep => "value is nested too deeply"
  | missingOperand => "missing operand"
  | invalidNumber text => "invalid number " ++ quoted text
  | unexpectedInValue text => "unexpected " ++ quoted text ++ " in value"
  | missingParen => "missing `)`"
  | missingCallParen text => "missing `)` for " ++ quoted text
  | notParen found => "expected `)`, found " ++ quoted found
  | missingEscapedString => "expected a string after `~`"

end Fault

/-- A fault and the place it is blamed on. Only an unclosed block has no place. -/
structure Diagnostic where
  fault : Fault
  position : Option Position
deriving DecidableEq, Repr

def Fault.blame (f : Fault) (p : Position) : Diagnostic := ⟨f, some p⟩

/-- What is shown of a diagnostic. -/
structure Report where
  kind : Fault.Kind
  detail : String
  position : Option Position
deriving DecidableEq, Repr

namespace Report

def line (r : Report) : Int := r.position.elim (-1) fun p => p.line

def column (r : Report) : Int := r.position.elim (-1) fun p => p.column

def place (r : Report) : String := " (line " ++ toString r.line ++ ", column " ++ toString r.column ++ ")"

/-- The line of text for a report. A malformed sheet is reported by its line alone. -/
def message (r : Report) : String :=
  match r.kind with
  | .undefinedReference => "Error: " ++ r.detail ++ " is undefined" ++ r.place
  | .runtime => "Error: " ++ r.detail ++ r.place
  | .unbalanced => "Syntax Error: " ++ r.detail ++ r.place
  | .malformed => "Parse Error: Syntax Error on line " ++ toString r.line

end Report

namespace Diagnostic

def report (d : Diagnostic) : Report := ⟨d.fault.kind, d.fault.detail, d.position⟩

def message (d : Diagnostic) : String := d.report.message

end Diagnostic
end LessCss
