import ElementScript.Component
import ElementScript.Config

/-!
# The component store

The component `card` lives in the directory `card` below that of all components, as `_card.html`,
`_card.css` and `_card.js`, of which only the first has to be there. A component that has been
loaded is kept for good; failures are not, so the files are looked at anew the next time.
-/

namespace ElementScript

/-- Settings without flaws, and the components loaded so far. -/
structure Component.Store where
  config : Config
  compiler : Compiler
  loaded : List (Text × Component)

namespace Component.Store

/-- A store that has loaded nothing. -/
def ofConfig (config : Config) : Except Cause Component.Store :=
  (Compiler.ofOptions config.options).map (⟨config, ·, []⟩)

/-- The path of a part of a component. -/
def pathOf (store : Component.Store) (name extension : Text) : Path :=
  Path.join (Path.join store.config.componentsDir name) ('_' :: (name ++ '.' :: extension))

/-- The component that has been loaded under a name. -/
def find? (store : Component.Store) (name : Text) : Option Component := store.loaded.lookup name

variable {m : Type → Type} [Monad m]

/-- A part of a component; a part that is missing or empty counts as none. -/
def readOptional (files : FileAccess m) (path : Path) : m (Except LoadProblem (Option Text)) := do
  match ← files.readText path with
  | .ok [] => return .ok none
  | .ok t => return .ok (some t)
  | .error .notFound => return .ok none
  | .error problem => return .error (.unreadable path problem)

/-- The component that the files hold under a name: none without markup. -/
def assemble (store : Component.Store) (files : FileAccess m) (name : Text) :
    m (Except LoadProblem (Option Component)) := do
  match ← readOptional files (store.pathOf name "html".toList) with
  | .error problem => return .error problem
  | .ok none => return .ok none
  | .ok (some markup) =>
    match ← readOptional files (store.pathOf name "css".toList) with
    | .error problem => return .error problem
    | .ok style? =>
      match ← readOptional files (store.pathOf name "js".toList) with
      | .error problem => return .error problem
      | .ok none => return .ok (some ⟨markup, style?, none⟩)
      | .ok (some script) =>
        match store.compiler.compile script with
        | .error d => return .error (.badScript name d)
        | .ok compiled => return .ok (some ⟨markup, style?, some compiled⟩)

/-- Load the component of a name, which is taken as it is, from the store or else from the files. -/
def fetch (store : Component.Store) (files : FileAccess m) (name : Text) :
    m (Except LoadProblem (Option Component) × Component.Store) := do
  match store.find? name with
  | some component => return (.ok (some component), store)
  | none =>
    match ← store.assemble files name with
    | .ok (some component) =>
      return (.ok (some component), { store with loaded := (name, component) :: store.loaded })
    | missing => return (missing, store)

/-- Whether a name in a request is looked up, as it is written: it is not too long, and its form for
looking up is the name of a component. -/
def accepts (store : Component.Store) (raw : Text) : Bool :=
  raw.length ≤ store.config.maxTagNameLength && Component.isName (Component.canonicalName raw)

/-- Go on with a request. `seen` holds the names before, as they are written, and `found` the
components that have been loaded for them. A name that comes again is passed over, as is one under
which a component has been found. -/
def answerFrom (files : FileAccess m) (store : Component.Store) (seen : List Text)
    (found : List (Text × Component)) :
    List Text → m (List (Text × Component) × Component.Store)
  | [] => return (found, store)
  | raw :: names => do
    let name := Component.canonicalName raw
    if seen.contains raw || !store.accepts raw || (found.lookup name).isSome then
      answerFrom files store (raw :: seen) found names
    else
      let (loaded, store) ← store.fetch files name
      match loaded with
      | .ok (some component) =>
        answerFrom files store (raw :: seen) ((name, component) :: found) names
      | _ => answerFrom files store (raw :: seen) found names

/-- The components of a request, by name. A name that is too long, no name of a component, or not
the name of one that can be loaded, is passed over. There is no answer to an empty request. -/
def answer (store : Component.Store) (files : FileAccess m) (names : List Text) :
    m (Option (List (Text × Component)) × Component.Store) := do
  if names.isEmpty then return (none, store)
  else
    let (found, store) ← answerFrom files store [] [] names
    return (some (found.mergeSort fun a b => !decide (b.1 < a.1)), store)

end Component.Store

/-! ### Requests -/

/-- The names of the components that a request asks for. -/
def requestReader : JsonReader.RecordReader (Option (List Text)) (List Text) where
  start := none
  fields := [.of "components" id (fun _ x => some x) (JsonReader.list JsonReader.text)]
  finish names? := some (names?.getD [])

/-- The names that a request in JSON asks for. -/
def requestOfJson (t : Text) : Except JsonProblem (List Text) :=
  JsonReader.document (JsonReader.record requestReader) t

end ElementScript
