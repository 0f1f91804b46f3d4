import ElementScript.CommandLine.Help
import ElementScript.Component.Store
import ElementScript.Rounding

/-!
# Running commands

A command reads files and standard input through the views it is given, and its effect is the exit
code and the text of an `Outcome`. What goes to the error stream is marked by a palette. `check`
reports each script below a directory by itself, so no script's failure touches another's verdict.
-/

namespace ElementScript

/-- What a run of the program comes to. -/
structure Outcome where
  code : Nat
  output : String
  errors : String
  /-- Whether the time that the run took is told at the end of the errors. -/
  timed : Bool
  deriving Repr, DecidableEq

namespace Outcome

/-- Success, with the given output. -/
def success (output : String) : Outcome := ⟨0, output, "", false⟩

/-- Failure, with the given report. -/
def failure (report : String) : Outcome := ⟨1, "", report, false⟩

/-- All that goes to the error stream of a run, given the nanoseconds that it took. -/
def errorText (o : Outcome) (palette : Diagnostic.Palette) (nanos : Nat) : String :=
  o.errors ++ if o.timed then " in " ++ durationText nanos ++ palette.reset ++ "\n" else ""

end Outcome

namespace Command

/-- The name by which reports call a file. -/
def fileLabel (path : Path) : String := String.ofList ((Path.fileName? path).getD "unknown".toList)

variable (palette : Diagnostic.Palette)

/-! ### Compiling one script -/

/-- A compiled script as plain text: the members of the class, then the load handler under a
heading. -/
def plainText (t : CompiledScript) : Text :=
  t.members ++
    match t.loadHandler? with
    | none => []
    | some handler =>
      (if t.members.getLast? == some '\n' then [] else ['\n']) ++
        "// load handler\n".toList ++ handler ++ ['\n']

/-- JSON on lines of its own. -/
def jsonText (v : JsonValue) : Text := v.print ++ ['\n']

/-- Compile a script that is known by the given name. -/
def compileScript (json : Bool) (filename : String) (script : Text) : Outcome :=
  match ElementScript.compile script with
  | .error d => .failure (d.render palette filename)
  | .ok t => .success (String.ofList (if json then jsonText t.toJson else plainText t))

/-! ### Checking scripts -/

/-- Whether a file is a component's script, by its name. -/
def isScript (path : Path) : Bool :=
  (Path.fileName? path).any fun name => "_".toList.isPrefixOf name && ".js".toList.isSuffixOf name

/-- Why a script cannot be compiled, given what is in its file. -/
def failureReport? (path : Path) (contents : Except FileProblem Text) : Option String :=
  match contents with
  | .error problem => some ("failed to read: " ++ problem.message ++ "\n")
  | .ok script =>
    match ElementScript.compile script with
    | .error d => some (d.render palette (fileLabel path))
    | .ok _ => none

/-- What is printed for one script: a line with its verdict, and the report if it failed. -/
def statusLines (path : Path) (report? : Option String) : String :=
  match report? with
  | none => "  " ++ palette.passed ++ "✓" ++ palette.reset ++ " " ++ String.ofList path ++ "\n"
  | some report =>
    "  " ++ palette.failed ++ "✗" ++ palette.reset ++ " " ++ String.ofList path ++ "\n" ++ report

/-- The last line, up to the time: how many scripts there were, and how many failed. -/
def summaryLine (checked failed : Nat) : String :=
  "\n" ++ palette.bold ++ "✨ Checked " ++ Nat.repr checked ++
    (if checked = 1 then " file" else " files") ++
    if failed = 0 then "" else ", " ++ Nat.repr failed ++ " failed"

/-- The outcome of checking scripts, each with the reason why it failed, if it did. -/
def checkOutcome (dir : Path) (scripts : List (Path × Option String)) : Outcome :=
  if scripts.isEmpty then
    .failure ("No component scripts found in " ++ String.ofList dir ++ "\n")
  else
    let failed := scripts.countP (·.2.isSome)
    let report := String.join (scripts.map fun s => statusLines palette s.1 s.2)
    ⟨if failed = 0 then 0 else 1, "", report ++ summaryLine palette scripts.length failed, true⟩

/-! ### Commands -/

variable {m : Type → Type} [Monad m]

/-- Run `translate`. -/
def runTranslate (files : FileAccess m) (input : m ByteArray) (file? : Option Path)
    (fromInput json : Bool) : m Outcome := do
  if fromInput then
    match decodeUtf8 (← input) with
    | .error problem =>
      return .failure ("Error: failed to read stdin: " ++ problem.message ++ "\n")
    | .ok script => return compileScript palette json "<stdin>" script
  else match file? with
    | none => return .failure "Error: provide a file or use --stdin\n"
    | some path =>
      match ← files.readText path with
      | .error problem =>
        return .failure
          ("Error: failed to read " ++ String.ofList path ++ ": " ++ problem.message ++ "\n")
      | .ok script => return compileScript palette json (fileLabel path) script

/-- Run `check`. -/
def runCheck (files : FileAccess m) (dir : Path) : m Outcome := do
  if ← files.isDirectory dir then
    let paths := (← files.filesBelow dir).filter isScript
    let scripts ← paths.mapM fun path =>
      return (path, failureReport? palette path (← files.readText path))
    return checkOutcome palette dir scripts
  else return .failure ("Error: " ++ String.ofList dir ++ " is not a directory\n")

/-- The settings that `bundle` is given. -/
def bundleConfig (files : FileAccess m) (dir? config? : Option Path) :
    m (Except String Config) := do
  match config?, dir? with
  | some path, _ =>
    match ← Config.load files path with
    | .error problem => return .error (problem.render palette)
    | .ok config => return .ok { config with componentsDir := dir?.getD config.componentsDir }
  | none, some dir => return .ok (.ofDirectory dir)
  | none, none => return .error "Error: provide --dir or --config\n"

/-- The components of a request as JSON, by name. -/
def bundleJson : Option (List (Text × Component)) → JsonValue
  | none => .null
  | some components => .object (components.map fun c => (c.1, c.2.toJson))

/-- Run `bundle`. -/
def runBundle (files : FileAccess m) (names : List Text) (dir? config? : Option Path) :
    m Outcome := do
  match ← bundleConfig palette files dir? config? with
  | .error report => return .failure report
  | .ok config =>
    match Component.Store.ofConfig config with
    | .error flaw => return .failure ("Error: invalid translation table: " ++ flaw.message ++ "\n")
    | .ok store =>
      let (components, _) ← store.answer files names
      return .success (String.ofList (jsonText (bundleJson components)))

/-- Run a command. -/
def run (files : FileAccess m) (input : m ByteArray) : Command → m Outcome
  | translate file? fromInput json => runTranslate palette files input file? fromInput json
  | check dir => runCheck palette files dir
  | bundle names dir? config? => runBundle palette files names dir? config?

end Command

/-- Run the program with the given arguments, and mark what goes to the error stream by a palette.
Arguments that make no sense give code 2. -/
def runProgramWith {m : Type → Type} [Monad m] (palette : Diagnostic.Palette)
    (files : FileAccess m) (input : m ByteArray) (args : List Text) : m Outcome :=
  match Invocation.ofArgs args with
  | .misuse => pure ⟨2, "", HelpPage.program.text, false⟩
  | .help page => pure (.success page.text)
  | .run command => command.run palette files input

/-- Run the program where the error stream is no terminal. -/
def runProgram {m : Type → Type} [Monad m] (files : FileAccess m) (input : m ByteArray)
    (args : List Text) : m Outcome :=
  runProgramWith .plain files input args

end ElementScript
