import LessCss.CommandLine
/-!
The program `lessc`. All decisions are those of `CommandLine`. Here files are read and written.
-/
namespace LessCss.CommandLine

def causeOf : IO.Error → String
  | .noFileOrDirectory .. => FileFault.notFound.message
  | .inappropriateType _ code _ =>
    if code = 20 then FileFault.notDirectory.message else FileFault.isDirectory.message
  | e => toString e

def readSource (path : Text) : IO (Except String Text) := do
  match ← (IO.FS.readBinFile (String.ofList path)).toBaseIO with
  | .error e => return .error (causeOf e)
  | .ok bytes =>
    match String.fromUTF8? bytes with
    | some text => return .ok text.toList
    | none => return .error FileFault.notText.message

def spareNames : Nat := 1000

/-- Makes an empty file beside a path, under a name that nothing has. -/
def createBeside (path : Text) : Nat → IO (IO.FS.Handle × String)
  | 0 => throw (.userError FileFault.alreadyExists.message)
  | n + 1 => do
    let name := ".tmp".toList ++ Nat.toDigits 10 (← IO.rand 0 999999999)
    let staged := String.ofList (Path.join (Path.parent path) name)
    match ← (IO.FS.Handle.mk staged .writeNew).toBaseIO with
    | .ok h => return (h, staged)
    | .error (.alreadyExists ..) => createBeside path n
    | .error e => throw e

/-- All may read the output, its owner may write it. The permissions of a file cannot be asked for here, so those of an
output that is already there are not kept. -/
def outputRights : IO.FileRight where
  user := { read := true, write := true }
  group := { read := true }
  other := { read := true }

/-- Writes a style sheet as `FileSystem.deliver` does: by way of a new file beside the output, which is taken away again
if a step fails. -/
def writeOutput (path css : Text) : IO Unit := do
  let (h, staged) ← createBeside path spareNames
  try
    h.putStr (String.ofList css)
    h.flush
    IO.setAccessRights staged outputRights
    IO.FS.rename staged (String.ofList path)
  catch e =>
    discard (IO.FS.removeFile staged).toBaseIO
    throw e

def compileFor (o : Options) : IO (Except Failure Text) := do
  let source ← readSource o.input
  let result := (Loader.mk (fun _ => source) id).compile o.layout o.input
  match result, o.output with
  | .ok css, some output =>
    match ← (writeOutput output css).toBaseIO with
    | .ok () => return .ok []
    | .error e => return .error (.unwritable ⟨output, causeOf e⟩)
  | _, _ => return result

end LessCss.CommandLine

open LessCss.CommandLine in
def main (args : List String) : IO UInt32 := do
  match Invocation.ofArguments (args.map String.toList) with
  | .misuse =>
    IO.eprint (String.ofList usage)
    return 2
  | .version =>
    IO.print (String.ofList versionText)
    return 0
  | .help =>
    IO.print (String.ofList usage)
    return 0
  | .compile o =>
    let outcome := o.outcome (← compileFor o)
    outcome.stderr.forM IO.eprintln
    IO.print (String.ofList outcome.stdout)
    return outcome.code.toUInt32
