import ElementScript.Comment
import ElementScript.Lifecycle
import ElementScript.Listener.Lift

/-!
# Passes

A pass takes one kind of sugar out of a script: it answers a list of edits (`Pass.run`), and adds
what it lifts out to the `Harvest`, which holds all of it, whichever passes have been run. It knows
nothing of the passes before it.

`runPasses` runs any list of passes, each over the output of the one before. A fault that a later
pass finds is led back through the maps of the earlier ones (`traceBack`), so that it points into
the script that the author wrote.
-/

namespace ElementScript

/-! ### What a script yields -/

/-- Something about a script that its author should know, though it can be compiled. -/
inductive Warning where
  /-- More than one listener observes the attribute. -/
  | repeatedAttribute (observed : Text)
  /-- A load handler after the first. -/
  | laterLoadHandler
  deriving Repr, DecidableEq

/-- The warning as a sentence. -/
def Warning.message : Warning → String
  | repeatedAttribute observed =>
    "attribute \"" ++ String.ofList observed ++
      "\" has more than one change listener; only the first one runs"
  | laterLoadHandler => "only the first load handler is used; later ones are left in place"

/-- What passes have lifted out of a script. -/
structure Harvest where
  listeners : List Listener
  loadHandler? : Option Text
  warnings : List Warning
  deriving Repr, DecidableEq

/-- Nothing yet. -/
def Harvest.empty : Harvest := ⟨[], none, []⟩

/-! ### One pass -/

/-- One stage in compiling a script. -/
inductive Pass where
  | comments
  | lifecycle
  | changeListeners
  | loadHandler
  deriving Repr, DecidableEq

namespace Pass

/-- The name of the pass. -/
def name : Pass → String
  | comments => "strip-comments"
  | lifecycle => "lifecycle"
  | changeListeners => "change-listeners"
  | loadHandler => "load-handler"

/-- The passes that compile a script, in order. -/
def standard : List Pass := [comments, lifecycle, changeListeners, loadHandler]

/-- The edit that puts the dispatcher at the end of a script with listeners. -/
def dispatcherEdits (v : Vocabulary) (listeners : List Listener) : List Edit :=
  if listeners.isEmpty then [] else [.replace [] (dispatcherMembers v listeners)]

/-- Run the pass over a script. -/
def run (v : Vocabulary) (script : Text) (harvest : Harvest) :
    Pass → Except Fault (List Edit × Harvest)
  | comments => .ok (commentEdits script, harvest)
  | lifecycle => .ok (lifecycleEdits v script, harvest)
  | changeListeners =>
    (liftListeners v script).map fun x =>
      (x.edits ++ dispatcherEdits v x.listeners,
        { harvest with
          listeners := x.listeners
          warnings := harvest.warnings ++
            (Listener.repeatedAttributes x.listeners).map .repeatedAttribute })
  | loadHandler =>
    (liftLoadHandler v script).map fun x =>
      (x.edits,
        { harvest with
          loadHandler? := x.handler?
          warnings := harvest.warnings ++ List.replicate x.ignored .laterLoadHandler })

end Pass

/-! ### Passes in a row -/

/-- Lead an offset back through maps, the last one first in the list. -/
def traceBack (maps : List SourceMap) (offset : Nat) : Nat :=
  maps.foldl (fun offset m => m.toSource offset) offset

/-- What passes have made of a script. -/
structure Progress where
  /-- The script as it is now. -/
  script : Text
  harvest : Harvest
  /-- The maps of the passes so far, the last one first. -/
  maps : List SourceMap
  deriving Repr, DecidableEq

namespace Progress

/-- Before any pass. -/
def start (script : Text) : Progress := ⟨script, .empty, []⟩

/-- The offset of the script at the start that an offset of the script as it is now comes from. -/
def origin (p : Progress) (offset : Nat) : Nat := traceBack p.maps offset

/-- Run one more pass. A fault that it finds is led back to the script at the start. -/
def advance (v : Vocabulary) (p : Progress) (pass : Pass) : Except Fault Progress :=
  match pass.run v p.script p.harvest with
  | .error f => .error { f with offset := p.origin f.offset }
  | .ok (edits, harvest) => .ok ⟨Edit.output edits, harvest, .ofEdits edits :: p.maps⟩

end Progress

/-- Run the passes over a script. A fault is at an offset of that script. -/
def runPasses (v : Vocabulary) (passes : List Pass) (script : Text) : Except Fault Progress :=
  passes.foldlM (Progress.advance v) (.start script)

end ElementScript
