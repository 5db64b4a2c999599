import LessCss.Compile
/-!
Compiling a source text that has to be fetched first.

A loader gives the whole text of a location, or says why it cannot. Whatever goes wrong on the way from a
location to a written style sheet is a `Failure`.
-/
namespace LessCss

/-- A file that could not be used, and why not. -/
structure FileError where
  path : Text
  cause : String
deriving DecidableEq, Repr

/-- Why a compilation from a location gave no style sheet. -/
inductive Failure
  | rejected (d : Diagnostic)
  | unreadable (e : FileError)
  | unwritable (e : FileError)
deriving DecidableEq, Repr

def FileError.describe (e : FileError) (action : String) : String :=
  "Error: failed to " ++ action ++ " " ++ String.ofList e.path ++ ": " ++ e.cause

def Failure.message : Failure → String
  | rejected d => d.message
  | unreadable e => e.describe "read"
  | unwritable e => e.describe "write"

/-- Where source texts come from. A failure to read is reported for the path that `describe` gives. -/
structure Loader where
  read : Text → Except String Text
  describe : Text → Text

namespace Loader

def ofList (texts : List (Text × Text)) : Loader where
  read location := match texts.lookup location with
    | some text => .ok text
    | none => .error "no such resource"
  describe location := location

def compile (loader : Loader) (layout : Css.Layout) (location : Text) : Except Failure Text :=
  match loader.read location with
  | .error cause => .error (.unreadable ⟨loader.describe location, cause⟩)
  | .ok source => (LessCss.compile layout source).mapError .rejected

end Loader
end LessCss
