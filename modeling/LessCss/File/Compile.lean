import LessCss.Loader
import LessCss.File.Staging
/-!
Compiling files.

A style sheet is written only after the whole source has been compiled, and it is moved to its place only when it is
complete.
-/
namespace LessCss.FileSystem

/-- The path of a location, which is taken below the base if there is one. -/
def resolve (base : Option Text) (location : Text) : Text := base.elim location fun b => Path.join b location

def loader (fs : FileSystem) (base : Option Text) : Loader where
  read location := (fs.read (resolve base location)).mapError FileFault.message
  describe := resolve base

def compilePath (fs : FileSystem) (layout : Css.Layout) (path : Text) : Except Failure Text :=
  (fs.loader none).compile layout path

def encode (t : Text) : ByteArray := (String.ofList t).toUTF8

/-- Compiles a source file and writes the style sheet to a file. -/
def compileInto (fs : FileSystem) (layout : Css.Layout) (input output : Text) : FileSystem × Except Failure Unit :=
  match fs.compilePath layout input with
  | .error f => (fs, .error f)
  | .ok css =>
    match fs.deliver output (encode css) with
    | (fs, .error f) => (fs, .error (.unwritable ⟨output, f.message⟩))
    | (fs, .ok ()) => (fs, .ok ())

def compileFile (fs : FileSystem) (layout : Css.Layout) (input output : Text) : Except Failure FileSystem :=
  match fs.compileInto layout input output with
  | (_, .error f) => .error f
  | (fs, .ok ()) => .ok fs

end LessCss.FileSystem
