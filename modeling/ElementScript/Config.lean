import ElementScript.Json.Record
import ElementScript.Files.Access
import ElementScript.Compiler

/-!
# Settings

Settings are read from a JSON document with one member, `components`. Only the directory of the
components has to be given: every other field, and every word of the vocabulary, has a default.

Settings and components are loaded from files. `LoadProblem.render` is what the author gets to see
if that fails.
-/

namespace ElementScript

/-! ### Why something cannot be loaded -/

/-- A failure to load settings or a component. -/
inductive LoadProblem where
  | unreadable (path : Path) (problem : FileProblem)
  | badConfig (problem : JsonProblem)
  | badScript (component : Text) (diagnostic : Diagnostic)
  deriving Repr, DecidableEq

namespace LoadProblem

/-- The problem in one sentence. -/
def message : LoadProblem → String
  | unreadable path problem => "Failed to read " ++ String.ofList path ++ ": " ++ problem.message
  | badConfig problem => "Invalid configuration: " ++ problem.message
  | badScript component d =>
    "Failed to translate script of '" ++ String.ofList component ++ "': " ++ d.summary

/-- The problem laid out: with the place in the script, if it has one. -/
def render (palette : Diagnostic.Palette) : LoadProblem → String
  | badScript component d => d.render palette ("_" ++ String.ofList component ++ ".js")
  | problem =>
    palette.error ++ "error" ++ palette.reset ++ ": " ++ palette.bold ++ problem.message ++
      palette.reset ++ "\n"

end LoadProblem

/-! ### Settings -/

/-- The settings of a component store. -/
structure Config where
  componentsDir : Path
  /-- The longest name that is looked up in a request, in characters. -/
  maxTagNameLength : Nat
  maxScriptBytes : Nat
  vocabulary : Vocabulary
  deriving Repr, DecidableEq

namespace Config

/-- The usual settings for the given directory. -/
def ofDirectory (dir : Path) : Config := ⟨dir, 250, 1024 * 1024, .standard⟩

/-- The settings for compiling scripts. -/
def options (c : Config) : Options := ⟨c.vocabulary, c.maxScriptBytes⟩

open JsonReader

/-! ### Vocabularies in JSON -/

/-- A lifecycle entry; both fields have to be given. -/
def lifecycleEntry : RecordReader (Option Text × Option Text) LifecycleEntry where
  start := (none, none)
  fields := [
    .of "marker" (·.1) (fun s x => (some x, s.2)) text,
    .of "callback" (·.2) (fun s x => (s.1, some x)) text]
  finish s := do return ⟨← s.1, ← s.2⟩

/-- The words of a vocabulary that have been given. -/
structure Words where
  lifecyclePrefix? : Option Text
  lifecycle? : Option (List LifecycleEntry)
  listenerToken? : Option Text
  oldValueName? : Option Text
  newValueName? : Option Text
  loadHandlerMarker? : Option Text

/-- The standard vocabulary with the given words in it. -/
def Words.complete (w : Words) : Vocabulary where
  lifecyclePrefix := w.lifecyclePrefix?.getD Vocabulary.standard.lifecyclePrefix
  lifecycle := w.lifecycle?.getD Vocabulary.standard.lifecycle
  listenerToken := w.listenerToken?.getD Vocabulary.standard.listenerToken
  oldValueName := w.oldValueName?.getD Vocabulary.standard.oldValueName
  newValueName := w.newValueName?.getD Vocabulary.standard.newValueName
  loadHandlerMarker := w.loadHandlerMarker?.getD Vocabulary.standard.loadHandlerMarker

/-- A vocabulary. -/
def vocabularyReader : RecordReader Words Vocabulary where
  start := ⟨none, none, none, none, none, none⟩
  fields := [
    .of "lifecyclePrefix" (·.lifecyclePrefix?)
      (fun w x => { w with lifecyclePrefix? := some x }) text,
    .of "lifecycle" (·.lifecycle?)
      (fun w x => { w with lifecycle? := some x }) (list (record lifecycleEntry)),
    .of "listenerToken" (·.listenerToken?) (fun w x => { w with listenerToken? := some x }) text,
    .of "oldValueName" (·.oldValueName?) (fun w x => { w with oldValueName? := some x }) text,
    .of "newValueName" (·.newValueName?) (fun w x => { w with newValueName? := some x }) text,
    .of "loadHandlerMarker" (·.loadHandlerMarker?)
      (fun w x => { w with loadHandlerMarker? := some x }) text]
  finish w := some w.complete

/-! ### Settings in JSON -/

/-- The settings that have been given. -/
structure Given where
  componentsDir? : Option Path
  maxTagNameLength? : Option Nat
  maxScriptBytes? : Option Nat
  vocabulary? : Option Vocabulary

/-- The settings given, and the usual ones elsewhere; none without a directory. -/
def Given.complete? (g : Given) : Option Config :=
  g.componentsDir?.map fun dir =>
    let usual := ofDirectory dir
    { componentsDir := dir
      maxTagNameLength := g.maxTagNameLength?.getD usual.maxTagNameLength
      maxScriptBytes := g.maxScriptBytes?.getD usual.maxScriptBytes
      vocabulary := g.vocabulary?.getD usual.vocabulary }

/-- The settings of a component store. -/
def reader : RecordReader Given Config where
  start := ⟨none, none, none, none⟩
  fields := [
    .of "componentsDirPath" (·.componentsDir?)
      (fun g x => { g with componentsDir? := some x }) text,
    .of "maxTagNameLength" (·.maxTagNameLength?)
      (fun g x => { g with maxTagNameLength? := some x }) natural,
    .of "maxScriptBytes" (·.maxScriptBytes?)
      (fun g x => { g with maxScriptBytes? := some x }) natural,
    .of "translation" (·.vocabulary?)
      (fun g x => { g with vocabulary? := some x }) (record vocabularyReader)]
  finish := Given.complete?

/-- A document of settings. -/
def documentReader : RecordReader (Option Config) Config where
  start := none
  fields := [.of "components" id (fun _ x => some x) (record reader)]
  finish := id

/-- The settings that a JSON text gives. -/
def ofJson (t : Text) : Except JsonProblem Config := document (record documentReader) t

/-- The settings with a relative directory seen from the directory of the file that they come
from. -/
def relativeTo (file : Path) (c : Config) : Config :=
  if Path.isAbsolute c.componentsDir then c
  else match Path.parent? file with
    | some parent => { c with componentsDir := Path.join parent c.componentsDir }
    | none => c

/-- The settings that a file gives. -/
def load {m : Type → Type} [Monad m] (files : FileAccess m) (file : Path) :
    m (Except LoadProblem Config) := do
  match ← files.readText file with
  | .error problem => return .error (.unreadable file problem)
  | .ok t =>
    match ofJson t with
    | .error problem => return .error (.badConfig problem)
    | .ok config => return .ok (config.relativeTo file)

end Config

end ElementScript
