import ElementScript.Scan.Handler
import ElementScript.Scan.Sweep
import ElementScript.Vocabulary

/-!
# Lifecycle markers and the load handler

A call of a lifecycle marker becomes a definition of the callback that it stands for. The sweep goes
over the script once for all entries; where two entries fit at one place, the earlier one counts.

The first call of the load handler marker is cut out of the script; its block runs once the class is
defined. Later calls stay in place and are counted.
-/

namespace ElementScript

/-! ### Callbacks -/

/-- A lifecycle entry whose marker is called at the start of the text. -/
def lifecycleAt? (v : Vocabulary) (text : Text) : Option (Found LifecycleEntry) :=
  v.lifecycle.findSome? fun entry =>
    (callAt? (v.fullMarker entry) text).map fun call =>
      ⟨call.head ++ ['('], entry.callback ++ ['('], entry⟩

/-- The steps that put callbacks in the place of lifecycle markers. -/
def lifecycleSteps (v : Vocabulary) (script : Text) : List (Step LifecycleEntry) :=
  sweepAll (lifecycleAt? v) false script

/-- The edits that put callbacks in the place of lifecycle markers. -/
def lifecycleEdits (v : Vocabulary) (script : Text) : List Edit :=
  Step.edits (lifecycleSteps v script)

/-- The script with callbacks in the place of lifecycle markers. -/
def expandLifecycle (v : Vocabulary) (script : Text) : Text := Edit.output (lifecycleEdits v script)

/-! ### The load handler -/

/-- A script without its load handler. -/
structure LiftedLoadHandler where
  /-- The edits that cut the call out. -/
  edits : List Edit
  /-- The body of the handler, if there is one. -/
  handler? : Option Text
  /-- The number of calls that were left in place. -/
  ignored : Nat
  deriving Repr, DecidableEq

/-- The script that is left. -/
def LiftedLoadHandler.script (x : LiftedLoadHandler) : Text := Edit.output x.edits

namespace LoadHandler

/-- The body of the handler of a call, and the stretch of script that the call takes up. Offsets
count from the start of the call. -/
def ofCall (v : Vocabulary) (call : Call) : Except Fault (Found Text) :=
  match handler? call.args with
  | .error f => .error (f.shift (Text.byteSize call.head))
  | .ok none => .error ⟨.loadHandlerWithoutBlock v.loadHandlerMarker, 0⟩
  | .ok (some h) =>
    match strayArgument? h.rest with
    | some extra =>
      .error ⟨.loadHandlerExtraArgument v.loadHandlerMarker,
        Text.byteSize call.head + Text.byteSize h.args + Text.byteSize h.block + extra⟩
    | none =>
      .ok ⟨call.head ++ h.args ++ h.block ++ (splitCallEnd h.rest).1, [], Text.trim h.body⟩

/-- A call at the start of the text, up to its parenthesis. -/
def headAt? (marker text : Text) : Option (Found Unit) :=
  (callAt? marker text).map fun call => ⟨call.head, call.head, ()⟩

/-- The number of calls of the marker in a text whose start is a boundary, each looked for from the
parenthesis of the one before. -/
def countCalls (marker text : Text) : Nat :=
  (Step.values (sweepAll (headAt? marker) false text)).length

end LoadHandler

/-- Lift the first load handler out of a script. -/
def liftLoadHandler (v : Vocabulary) (script : Text) : Except Fault LiftedLoadHandler :=
  match seekCall v.loadHandlerMarker true [] script with
  | none => .ok ⟨Edit.keepAll script, none, 0⟩
  | some (before, call) =>
    match LoadHandler.ofCall v call with
    | .error f => .error (f.shift (Text.byteSize before))
    | .ok x =>
      let after := script.drop (before.length + x.old.length)
      .ok ⟨Edit.keepAll before ++ .replace x.old x.new :: Edit.keepAll after, some x.value,
        LoadHandler.countCalls v.loadHandlerMarker after⟩

end ElementScript
