import LessCss.CommandLine
import LessCss.Proofs.File.Staging
/-!
Compiling a file either does all it should or nothing.

However the compilation of a file ends, the file system is as it was, or the output is the style sheet of the source and
nothing else has changed (`compileInto_atomic`). What is said of the source is what every way to compile it says.
-/
namespace LessCss

namespace FileSystem

variable {fs fs' : FileSystem} {layout : Css.Layout} {path input output text css : Text} {place : Place}

theorem decode_encode (t : Text) : String.fromUTF8? (encode t) = some (String.ofList t) :=
  dif_pos (String.ofList t).isValidUTF8

/-- The style sheet of a source file, or what is wrong with it. -/
theorem compilePath_eq (fs : FileSystem) (layout : Css.Layout) (path : Text) : fs.compilePath layout path =
    match fs.read path with
    | .error f => .error (.unreadable ⟨path, f.message⟩)
    | .ok source => (compile layout source).mapError .rejected := by
  unfold compilePath Loader.compile loader
  dsimp only [resolve, Option.elim]
  cases fs.read path <;> rfl

theorem compilePath_eq_ok : fs.compilePath layout path = .ok css ↔
    ∃ source, fs.read path = .ok source ∧ compile layout source = .ok css := by
  rw [compilePath_eq]
  cases fs.read path with
  | error f => simp
  | ok source => cases hcompile : compile layout source <;> simp [hcompile]

theorem compilePath_eq_rejected {d : Diagnostic} : fs.compilePath layout path = .error (.rejected d) ↔
    ∃ source, fs.read path = .ok source ∧ compile layout source = .error d := by
  rw [compilePath_eq]
  cases fs.read path with
  | error f => simp
  | ok source => cases hcompile : compile layout source <;> simp [hcompile]

theorem loader_compile (fs : FileSystem) (base : Option Text) (layout : Css.Layout) (location : Text) :
    (fs.loader base).compile layout location = fs.compilePath layout (resolve base location) := rfl

theorem read_of_find {mode : Nat} (h : fs.find path = .ok (place, .file (encode text) mode))
    (hread : fs.allow .read place = .ok ()) : fs.read path = .ok text := by
  rw [FileSystem.read, h, ok_bind]
  dsimp only
  rw [hread, ok_bind, decode_encode]
  exact congrArg Except.ok (String.toList_ofList ..)

/-- Only the file at `path` differs in `fs'`. It holds `text` and has the permissions of the file that was there before,
or else those of a new file. -/
structure Rewritten (fs : FileSystem) (path text : Text) (place : Place) (fs' : FileSystem) : Prop where
  before : fs.locate path = .ok place
  after : fs'.find path = .ok (place, .file (encode text) ((fs.entry? place).elim 0o644 Entry.mode))
  read : fs'.allow .read place = .ok () → fs'.read path = .ok text
  entries : ∀ p, p ≠ place → fs'.entry? p = fs.entry? p
  paths : ∀ other, fs.locate other ≠ .ok place → (fs'.find other).toOption = (fs.find other).toOption
  workingDirectory : fs'.workingDirectory = fs.workingDirectory

theorem rewritten_of_target (h : fs.target path = .ok place) :
    fs.Rewritten path text place (fs.put place (.file (encode text) (fs.modeFor path))) := by
  obtain ⟨directory, n, hends, -, hplain⟩ := target_eq_ok h
  have hlocate := locate_of_target h
  have hafter : (fs.put place (.file (encode text) (fs.modeFor path))).find path =
      .ok (place, .file (encode text) ((fs.entry? place).elim 0o644 Entry.mode)) := by
    rw [find, (locate_put_file hplain).mpr hlocate, ok_bind, entry?_put_self, modeFor_of_target h]
    rfl
  exact ⟨hlocate, hafter, read_of_find hafter, fun p => entry?_put, fun other => find_put_file hplain, rfl⟩

/-- How the compilation of the source at `input` into `output` may end. -/
structure Ending (fs : FileSystem) (layout : Css.Layout) (input output : Text) (fs' : FileSystem)
    (result : Except Failure Unit) : Prop where
  unchanged : ∀ f, result = .error f → fs' = fs
  written : result = .ok () → ∃ source css place, fs.read input = .ok source ∧ compile layout source = .ok css ∧
    fs.compilePath layout input = .ok css ∧ fs.Rewritten output css place fs'
  rejected : ∀ d, result = .error (.rejected d) ↔
    ∃ source, fs.read input = .ok source ∧ compile layout source = .error d
  /-- Apart from what is wrong with the output, everything is wrong with the source. -/
  source : ∀ f, (∀ e, f ≠ .unwritable e) → (result = .error f ↔ fs.compilePath layout input = .error f)
  /-- Where nothing is refused, a style sheet and a path for a file are enough. -/
  unhindered : fs.Unhindered → (result = .ok () ↔ ∃ source css place, fs.read input = .ok source ∧
    compile layout source = .ok css ∧ fs.target output = .ok place)

theorem ending_of_failure {f : Failure} (h : fs.compilePath layout input = .error f) :
    fs.Ending layout input output fs (.error f) := by
  refine ⟨fun _ _ => rfl, nofun, fun d => ?_, fun f' _ => ?_, fun _ => ⟨nofun, ?_⟩⟩
  · rw [← compilePath_eq_rejected, h]
    simp
  · rw [h]
    simp
  · rintro ⟨source, css, place, hsource, hcss, -⟩
    rw [compilePath_eq_ok.mpr ⟨source, hsource, hcss⟩] at h
    contradiction

theorem ending_of_delivery (h : fs.compilePath layout input = .ok css) (htarget : fs.target output = .ok place) :
    fs.Ending layout input output (fs.put place (.file (encode css) (fs.modeFor output))) (.ok ()) := by
  obtain ⟨source, hsource, hcss⟩ := compilePath_eq_ok.mp h
  have hwritten : fs.Rewritten output css place _ := rewritten_of_target htarget
  refine ⟨nofun, fun _ => ⟨source, css, place, hsource, hcss, h, hwritten⟩, fun d => ?_, fun f _ => ?_,
    fun _ => ⟨fun _ => ⟨source, css, place, hsource, hcss, htarget⟩, fun _ => rfl⟩⟩
  · rw [← compilePath_eq_rejected, h]
    simp
  · rw [h]
    simp

theorem ending_of_fault (h : fs.compilePath layout input = .ok css)
    (hfault : fs.Unhindered → ∃ f, fs.target output = .error f) (e : FileError) :
    fs.Ending layout input output fs (.error (.unwritable e)) := by
  refine ⟨fun _ _ => rfl, nofun, fun d => ?_, fun f hf => ?_, fun hfree => ⟨nofun, ?_⟩⟩
  · rw [← compilePath_eq_rejected, h]
    simp
  · rw [h]
    simp [(hf e).symm]
  · rintro ⟨-, -, place, -, -, htarget⟩
    obtain ⟨f, hf⟩ := hfault hfree
    rw [hf] at htarget
    contradiction

/-- However a compilation ends, it has changed the output alone or nothing. -/
theorem compileInto_ending (fs : FileSystem) (layout : Css.Layout) (input output : Text) :
    fs.Ending layout input output (fs.compileInto layout input output).1 (fs.compileInto layout input output).2 := by
  unfold compileInto
  cases h : fs.compilePath layout input with
  | error f => exact ending_of_failure h
  | ok css =>
    dsimp only
    rcases deliver_cases fs output (encode css) with ⟨place, htarget, hdeliver⟩ | ⟨f, hdeliver, hfault⟩
    · rw [hdeliver]
      exact ending_of_delivery h htarget
    · rw [hdeliver]
      exact ending_of_fault h hfault _

end FileSystem

namespace CommandLine

variable {fs : FileSystem} {args : List Text} {o : Options}

/-- An outcome that tells the style sheet of a compilation on standard output, or else what failed, if anything is
reported at that level. -/
structure Outcome.Tells (outcome : Outcome) (level : LogLevel) (result : Except Failure Text) : Prop where
  succeeded : ∀ css, result = .ok css → outcome.code = 0 ∧ outcome.stdout = css
  failed : ∀ f, result = .error f →
    outcome.code = 1 ∧ outcome.stdout = [] ∧ (level ≠ .off → f.message ∈ outcome.stderr)

theorem Options.outcome_tells (o : Options) (result : Except Failure Text) :
    (o.outcome result).Tells o.level result where
  succeeded css h := by
    rw [h]
    exact ⟨rfl, rfl⟩
  failed f h := by
    rw [h]
    refine ⟨rfl, rfl, fun hlevel => List.mem_append_right _ ?_⟩
    rw [if_neg hlevel]
    exact List.mem_cons_self

/-- Without an output the command line tells the style sheet of the source and changes nothing. -/
theorem run_stdout (h : Invocation.ofArguments args = .compile o) (hnone : o.output = none) :
    (run fs args).2 = fs ∧ (run fs args).1.Tells o.level (fs.compilePath o.layout o.input) := by
  rw [run, h]
  dsimp only
  rw [hnone]
  exact ⟨rfl, o.outcome_tells _⟩

/-- With an output it compiles into that and tells nothing but what failed. -/
theorem run_output {output : Text} (h : Invocation.ofArguments args = .compile o) (hsome : o.output = some output) :
    (run fs args).2 = (fs.compileInto o.layout o.input output).1 ∧
      (run fs args).1.Tells o.level ((fs.compileInto o.layout o.input output).2.map fun _ => []) := by
  rw [run, h]
  dsimp only
  rw [hsome]
  exact ⟨rfl, o.outcome_tells _⟩

end CommandLine

/-- Compiling a file changes the output alone or nothing, and every way to compile a source file says the same of it. -/
theorem compileInto_atomic (fs : FileSystem) (layout : Css.Layout) (input output : Text) :
    fs.Ending layout input output (fs.compileInto layout input output).1 (fs.compileInto layout input output).2 ∧
    (∀ base location, (fs.loader base).compile layout location =
      fs.compilePath layout (FileSystem.resolve base location)) ∧
    ∀ args o, CommandLine.Invocation.ofArguments args = .compile o → o.layout = layout → o.input = input →
      (o.output = none → (CommandLine.run fs args).2 = fs ∧
        (CommandLine.run fs args).1.Tells o.level (fs.compilePath layout input)) ∧
      (o.output = some output → (CommandLine.run fs args).2 = (fs.compileInto layout input output).1 ∧
        (CommandLine.run fs args).1.Tells o.level ((fs.compileInto layout input output).2.map fun _ => [])) := by
  refine ⟨fs.compileInto_ending layout input output, fun base => fs.loader_compile base layout, ?_⟩
  rintro args o h rfl rfl
  exact ⟨CommandLine.run_stdout h, CommandLine.run_output h⟩

end LessCss
