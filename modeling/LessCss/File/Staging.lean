import LessCss.File.System
/-!
Writing a file so that it is there as a whole or not at all.

A new file is made in the directory of the path, under a name that nothing has. It is filled, given its permissions and
moved to the path. If one of these steps fails, the new file is taken away again.
-/
namespace LessCss.FileSystem

/-- The permissions of a file that is not finished: only its owner may use it. -/
def stagedFileMode : Nat := 0o600

/-- A name that is longer than every name in the file system and along the path. -/
def spareName (fs : FileSystem) (path : Text) : Text :=
  let names := fs.entries.flatMap (·.1) ++ fs.workingDirectory ++ Path.names path
  ".tmp".toList ++ List.replicate names.flatten.length 'x'

def create (fs : FileSystem) (directory name : Text) : Except FileFault (Place × FileSystem) := do
  let p ← fs.enter (← fs.locate directory) name
  fs.allow .create p
  if (fs.entry? p).isSome then .error .alreadyExists
  else .ok (p, fs.put p (.file .empty stagedFileMode))

/-- Writes to a file. If that is refused on the way, the file is left with the first bytes. -/
def fill (fs : FileSystem) (p : Place) (content : ByteArray) : FileSystem × Except FileFault Unit :=
  match fs.entry? p with
  | none => (fs, .error .notFound)
  | some e =>
    match fs.refusal .fill p with
    | some r => (fs.put p (.file (content.extract 0 r.written) e.mode), .error r.fault)
    | none => (fs.put p (.file content e.mode), .ok ())

def permit (fs : FileSystem) (p : Place) (mode : Nat) : Except FileFault FileSystem := do
  fs.allow .permit p
  match fs.entry? p with
  | none => .error .notFound
  | some e => .ok (fs.put p (e.setMode mode))

def move (fs : FileSystem) (p : Place) (path : Text) : Except FileFault FileSystem := do
  let q ← fs.target path
  fs.allow .move q
  match fs.entry? p with
  | none => .error .notFound
  | some e => .ok ((fs.remove p).put q e)

/-- The permissions for a file to be written: those of the file that is there, or else those of a new one. -/
def modeFor (fs : FileSystem) (path : Text) : Nat :=
  match fs.mode path with
  | .ok mode => mode
  | .error _ => newFileMode

def finish (fs : FileSystem) (p : Place) (path : Text) (content : ByteArray) : FileSystem × Except FileFault Unit :=
  match fs.fill p content with
  | (fs, .error e) => (fs, .error e)
  | (fs, .ok ()) =>
    match fs.permit p (fs.modeFor path) with
    | .error e => (fs, .error e)
    | .ok fs =>
      match fs.move p path with
      | .error e => (fs, .error e)
      | .ok fs => (fs, .ok ())

def deliver (fs : FileSystem) (path : Text) (content : ByteArray) : FileSystem × Except FileFault Unit :=
  match fs.create (Path.parent path) (fs.spareName path) with
  | .error e => (fs, .error e)
  | .ok (p, fs) =>
    match fs.finish p path content with
    | (fs, .error e) => (fs.remove p, .error e)
    | (fs, .ok ()) => (fs, .ok ())

end LessCss.FileSystem
