import LessCss.File.Path
/-!
A file system as a value.

Every file and directory is listed at its place, which is the row of names that leads to it from the root. A path
is followed name by name, and each name but the last must be that of a directory. Permissions are kept but
never stand in the way. The system may refuse what is done to a file on its own account.
-/
namespace LessCss

/-- The names that lead from the root to a file or directory. -/
abbrev Place := List Text

inductive Entry
  | file (content : ByteArray) (mode : Nat)
  | directory (mode : Nat)

namespace Entry

def mode : Entry → Nat
  | file _ mode => mode
  | directory mode => mode

def setMode (mode : Nat) : Entry → Entry
  | file content _ => .file content mode
  | directory _ => .directory mode

def isFile : Entry → Bool
  | file .. => true
  | directory _ => false

end Entry

/-- Why a file cannot be used. -/
inductive FileFault
  | notFound
  | isDirectory
  | notDirectory
  | alreadyExists
  | notText
deriving DecidableEq, Repr

def FileFault.message : FileFault → String
  | notFound => "No such file or directory (os error 2)"
  | isDirectory => "Is a directory (os error 21)"
  | notDirectory => "Not a directory (os error 20)"
  | alreadyExists => "File exists (os error 17)"
  | notText => "stream did not contain valid UTF-8"

/-- What is done to files. -/
inductive FileAction
  | read
  | create
  | fill
  | permit
  | move
deriving DecidableEq, Repr

/-- How the system refuses an action: a right is missing, or the disk is full. Some bytes may have been written by
then. -/
structure Refusal where
  fault : FileFault
  written : Nat

structure FileSystem where
  entries : List (Place × Entry)
  workingDirectory : Place
  refusal : FileAction → Place → Option Refusal

namespace FileSystem

/-- The permissions of a new file: all may read it, its owner may write it. -/
def newFileMode : Nat := 0o644

def newDirectoryMode : Nat := 0o755

/-- A file system with nothing in it but the directories that lead to the working directory. It refuses nothing. -/
def empty (workingDirectory : Place) : FileSystem :=
  let places := (List.range (workingDirectory.length + 1)).map workingDirectory.take
  ⟨places.map fun p => (p, .directory newDirectoryMode), workingDirectory, fun _ _ => none⟩

def entry? (fs : FileSystem) (p : Place) : Option Entry := fs.entries.lookup p

/-- Puts an entry at a place, over what was there before. -/
def put (fs : FileSystem) (p : Place) (e : Entry) : FileSystem :=
  { fs with entries := (p, e) :: fs.entries.filter (·.1 ≠ p) }

def remove (fs : FileSystem) (p : Place) : FileSystem := { fs with entries := fs.entries.filter (·.1 ≠ p) }

/-- Whether the system lets an action be done at a place. -/
def allow (fs : FileSystem) (a : FileAction) (p : Place) : Except FileFault Unit :=
  match fs.refusal a p with
  | none => .ok ()
  | some r => .error r.fault

/-- One step along a path, from a place that must be a directory. -/
def enter (fs : FileSystem) (here : Place) (name : Text) : Except FileFault Place :=
  match fs.entry? here with
  | none => .error .notFound
  | some (.file ..) => .error .notDirectory
  | some (.directory _) =>
    .ok (if name.isEmpty ∨ name = ['.'] then here
      else if name = ['.', '.'] then here.dropLast
      else here ++ [name])

def origin (fs : FileSystem) (path : Text) : Place := if Path.isAbsolute path then [] else fs.workingDirectory

/-- The place that a path leads to. There need not be anything at it. -/
def locate (fs : FileSystem) (path : Text) : Except FileFault Place :=
  if path.isEmpty then .error .notFound else (Path.names path).foldlM fs.enter (fs.origin path)

def find (fs : FileSystem) (path : Text) : Except FileFault (Place × Entry) := do
  let p ← fs.locate path
  match fs.entry? p with
  | none => .error .notFound
  | some e => .ok (p, e)

def read (fs : FileSystem) (path : Text) : Except FileFault Text := do
  let (p, e) ← fs.find path
  fs.allow .read p
  match e with
  | .directory _ => .error .isDirectory
  | .file content _ =>
    match String.fromUTF8? content with
    | some text => .ok text.toList
    | none => .error .notText

def isFileName (name : Text) : Bool := !name.isEmpty && name ≠ ['.'] && name ≠ ['.', '.']

/-- The place of a name to be made, which is in a directory. There need not be anything at it. -/
def locateNew (fs : FileSystem) (path : Text) : Except FileFault Place :=
  if path.isEmpty then .error .notFound else (Path.names (Path.stem path)).foldlM fs.enter (fs.origin path)

/-- The place of a file to be written: in a directory, under a name for files, and not itself a directory. -/
def target (fs : FileSystem) (path : Text) : Except FileFault Place := do
  let p ← fs.locateNew path
  if (Path.names path).getLast?.any isFileName then
    match fs.entry? p with
    | some (.directory _) => .error .isDirectory
    | _ => .ok p
  else .error .isDirectory

/-- Gives a file new content. A file that was there keeps its permissions. -/
def replace (fs : FileSystem) (p : Place) (content : ByteArray) : FileSystem :=
  fs.put p (.file content ((fs.entry? p).elim newFileMode Entry.mode))

def write (fs : FileSystem) (path : Text) (content : ByteArray) : Except FileFault FileSystem := do
  .ok (fs.replace (← fs.target path) content)

def makeDirectory (fs : FileSystem) (path : Text) : Except FileFault FileSystem := do
  let p ← fs.locateNew path
  if (Path.names (Path.stem path)).getLast?.any isFileName ∧ (fs.entry? p).isNone then
    .ok (fs.put p (.directory newDirectoryMode))
  else .error .alreadyExists

def isDirectory (fs : FileSystem) (path : Text) : Bool :=
  match fs.find path with
  | .ok (_, .directory _) => true
  | _ => false

def provideDirectory (fs : FileSystem) (path : Text) : Except FileFault FileSystem :=
  match fs.makeDirectory path with
  | .ok fs => .ok fs
  | .error e => if fs.isDirectory path then .ok fs else .error e

/-- Makes the first of some paths. If what leads to it is missing, the paths after it are made before, and they
stay even if the first cannot be made then. -/
def makeFirst (fs : FileSystem) : List Text → FileSystem × Except FileFault Unit
  | [] => (fs, .ok ())
  | path :: outer =>
    if path.isEmpty then (fs, .ok ())
    else match fs.provideDirectory path with
      | .ok fs => (fs, .ok ())
      | .error .notFound =>
        match fs.makeFirst outer with
        | (fs, .error e) => (fs, .error e)
        | (fs, .ok ()) =>
          match fs.provideDirectory path with
          | .ok fs => (fs, .ok ())
          | .error e => (fs, .error e)
      | .error e => (fs, .error e)

def makeDirectories (fs : FileSystem) (path : Text) : FileSystem × Except FileFault Unit :=
  fs.makeFirst (path :: Path.ancestors path)

def setMode (fs : FileSystem) (path : Text) (mode : Nat) : Except FileFault FileSystem := do
  let (p, e) ← fs.find path
  .ok (fs.put p (e.setMode mode))

def mode (fs : FileSystem) (path : Text) : Except FileFault Nat := do
  let (_, e) ← fs.find path
  .ok e.mode

/-- The path that leads from a directory to a place below it. -/
def pathFrom? (directory p : Place) : Option Text :=
  if directory.isPrefixOf p then some (Text.join ['/'] (p.drop directory.length)) else none

/-- The paths of all files below the working directory, in the order of their characters. -/
def files (fs : FileSystem) : List Text :=
  let paths := fs.entries.filterMap fun (p, e) => if e.isFile then pathFrom? fs.workingDirectory p else none
  paths.mergeSort fun a b => !b.lex a (· < ·)

end FileSystem
end LessCss
