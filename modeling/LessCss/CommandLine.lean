import LessCss.File.Compile
/-!
The command line.

Arguments are read from left to right, and the first that settles the matter does: a mistake, or a request for
the version or for help. The style sheet goes to the output file, or else to standard output.
-/
namespace LessCss.CommandLine

inductive LogLevel
  | off
  | error
  | warn
  | info
  | debug
  | trace
deriving DecidableEq, Repr

def LogLevel.ofText? (t : Text) : Option LogLevel :=
  [("off", off), ("error", error), ("warn", warn), ("info", info), ("debug", debug), ("trace", trace)].findSome?
    fun (name, level) => if Text.sameLetters t name.toList then some level else none

/-- What the arguments ask for. -/
structure Options where
  input : Text
  output : Option Text
  minify : Bool
  logLevel : Text
deriving DecidableEq, Repr

inductive Invocation
  | compile (o : Options)
  | version
  | help
  | misuse
deriving DecidableEq, Repr

/-- The arguments that have been read. -/
structure Given where
  input : Option Text
  output : Option Text
  minify : Bool
  logLevel : Option Text
deriving DecidableEq, Repr

namespace Given

def nothing : Given := ⟨none, none, false, none⟩

/-- A path may not be empty. No argument may be given twice. -/
def setInput? (g : Given) (path : Text) : Option Given :=
  if path.isEmpty ∨ g.input.isSome then none else some { g with input := some path }

def setOutput? (g : Given) (path : Text) : Option Given :=
  if path.isEmpty ∨ g.output.isSome then none else some { g with output := some path }

def setLogLevel? (g : Given) (level : Text) : Option Given :=
  if g.logLevel.isSome then none else some { g with logLevel := some level }

def setMinify? (g : Given) : Option Given := if g.minify then none else some { g with minify := true }

/-- The input is needed, and the level is `warn` unless another is given. -/
def finish (g : Given) : Invocation :=
  match g.input with
  | none => .misuse
  | some input => .compile ⟨input, g.output, g.minify, g.logLevel.getD "warn".toList⟩

end Given

/-- The options that take a value. -/
inductive Setting
  | output
  | logLevel
deriving DecidableEq, Repr

def Setting.set? (g : Given) (value : Text) : Setting → Option Given
  | output => g.setOutput? value
  | logLevel => g.setLogLevel? value

/-- What an argument is, by its spelling alone. -/
inductive Argument
  | plain (value : Text)
  | endOfOptions
  | minify
  | version
  | help
  | setting (s : Setting) (value : Option Text)
  | unknown
deriving DecidableEq, Repr

namespace Argument

/-- An option that is written out, with a value after a `=`. -/
def ofLong (t : Text) : Argument :=
  let name := t.takeWhile (· ≠ '=')
  let value := match t.dropWhile (· ≠ '=') with
    | [] => none
    | _ :: v => some v
  if name = "output".toList then .setting .output value
  else if name = "log-level".toList then .setting .logLevel value
  else if value.isSome then .unknown
  else if name = "minify".toList then .minify
  else if name = "version".toList then .version
  else if name = "help".toList then .help
  else .unknown

/-- An option that is a single letter. Its value may follow directly, with or without a `=`. -/
def ofShort (c : Char) (cs : Text) : Argument :=
  if c = 'o' then .setting .output (if cs.isEmpty then none else some (Text.tailIf (· = '=') cs))
  else if c = 'V' then .version
  else if c = 'h' then .help
  else .unknown

def ofText : Text → Argument
  | ['-', '-'] => .endOfOptions
  | '-' :: '-' :: t => ofLong t
  | '-' :: c :: cs => ofShort c cs
  | t => .plain t

end Argument

/-- What the arguments ask for, after those that have been read. After `--` there are no more options. -/
def readArguments (g : Given) (optionsEnded : Bool) : List Text → Invocation
  | [] => g.finish
  | a :: as =>
    match if optionsEnded then .plain a else Argument.ofText a with
    | .plain path =>
      match g.setInput? path with
      | some g => readArguments g optionsEnded as
      | none => .misuse
    | .endOfOptions => readArguments g true as
    | .minify =>
      match g.setMinify? with
      | some g => readArguments g optionsEnded as
      | none => .misuse
    | .version => .version
    | .help => .help
    | .setting s (some value) =>
      match s.set? g value with
      | some g => readArguments g optionsEnded as
      | none => .misuse
    | .setting s none =>
      match as with
      | [] => .misuse
      | v :: as =>
        match Argument.ofText v with
        | .plain value =>
          match s.set? g value with
          | some g => readArguments g optionsEnded as
          | none => .misuse
        | _ => .misuse
    | .unknown => .misuse

def Invocation.ofArguments (args : List Text) : Invocation := readArguments .nothing false args

/-- What a run leaves: the exit code, and what it wrote. -/
structure Outcome where
  code : Nat
  stdout : Text
  stderr : List String
deriving DecidableEq, Repr

def versionText : Text := "lessc 0.1.0\n".toList

def usage : Text := "Usage: lessc [OPTIONS] <INPUT>\n".toList

namespace Options

def layout (o : Options) : Css.Layout := if o.minify then .minified else .pretty

def level (o : Options) : LogLevel := (LogLevel.ofText? o.logLevel).getD .warn

/-- The complaint about a level that does not exist. -/
def warnings (o : Options) : List String :=
  match LogLevel.ofText? o.logLevel with
  | some _ => []
  | none => ["Invalid log level: " ++ String.ofList o.logLevel ++ ". Using 'warn' instead."]

/-- The outcome of a compilation. A failure is reported unless reports are off. -/
def outcome (o : Options) : Except Failure Text → Outcome
  | .ok stdout => ⟨0, stdout, o.warnings⟩
  | .error f => ⟨1, [], o.warnings ++ if o.level = .off then [] else [f.message]⟩

end Options

def run (fs : FileSystem) (args : List Text) : Outcome × FileSystem :=
  match Invocation.ofArguments args with
  | .misuse => (⟨2, [], []⟩, fs)
  | .version => (⟨0, versionText, []⟩, fs)
  | .help => (⟨0, usage, []⟩, fs)
  | .compile o =>
    match o.output with
    | none => (o.outcome (fs.compilePath o.layout o.input), fs)
    | some output =>
      let (fs, result) := fs.compileInto o.layout o.input output
      (o.outcome (result.map fun _ => []), fs)

end LessCss.CommandLine
