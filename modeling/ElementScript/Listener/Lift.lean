import ElementScript.Listener
import ElementScript.Listener.Rename
import ElementScript.Listener.Signature
import ElementScript.Scan.Handler
import ElementScript.Scan.Sweep
import ElementScript.Vocabulary

/-!
# Lifting listeners out of a script

Each listener call is read where it stands (`Listener.ofCall`) and cut out of the script together
with the end of its call. The place behind a cut is a boundary, so calls that follow one another
without a blank are all found.
-/

namespace ElementScript

namespace Listener

/-- The names of the values that a handler with the given parameters gets: a lone one is given the
current value, and the first two of several are given both. -/
def valueParams : List Text → Option Text × Option Text
  | [] => (none, none)
  | [new] => (none, some new)
  | old :: new :: _ => (some old, some new)

/-- The pairs by which the parameters become the names of the vocabulary; a parameter that has the
name already needs none. -/
def renames (v : Vocabulary) (params : Option Text × Option Text) : List (Text × Text) :=
  (params.1.toList.map (·, v.oldValueName) ++ params.2.toList.map (·, v.newValueName)).filter
    fun pair => pair.1 != pair.2

/-- The listener of a call with a handler block, and the stretch of script that it takes up. Offsets
count from the start of the call. -/
def ofHandler (v : Vocabulary) (call : Call) (h : Handler) : Except Fault (Found Listener) :=
  let argsStart := Text.byteSize call.head + 1
  let blockStop := Text.byteSize call.head + Text.byteSize h.args + Text.byteSize h.block
  match strayArgument? h.rest with
  | some extra => .error ⟨.listenerExtraArgument v.listenerToken, blockStop + extra⟩
  | none =>
    let inside := h.args.drop 1
    match attribute? inside with
    | none => .error ⟨.listenerWithoutAttribute v.listenerToken, argsStart⟩
    | some (observed, rest) =>
      match parameters? rest with
      | none =>
        .error ⟨.listenerParameters observed,
          argsStart + (Text.byteSize inside - Text.byteSize rest)⟩
      | some names =>
        let params := valueParams names
        let body := renameReferences (renames v params) (Text.trim h.body)
        .ok ⟨call.head ++ h.args ++ h.block ++ (splitCallEnd h.rest).1, [],
          ⟨observed, body, params.1, params.2⟩⟩

/-- The listener that a call of the listener token makes. -/
def ofCall (v : Vocabulary) (call : Call) : Except Fault (Found Listener) :=
  match handler? call.args with
  | .error f => .error (f.shift (Text.byteSize call.head))
  | .ok none => .error ⟨.listenerWithoutHandler v.listenerToken, 0⟩
  | .ok (some h) => ofHandler v call h

/-- The listener whose call stands at the start of the text. -/
def at? (v : Vocabulary) (text : Text) : Except Fault (Option (Found Listener)) :=
  match callAt? v.listenerToken text with
  | none => .ok none
  | some call => (ofCall v call).map some

end Listener

/-- The steps that cut the listener calls out of a script. -/
def listenerSteps (v : Vocabulary) (script : Text) : Except Fault (List (Step Listener)) :=
  sweep (Listener.at? v) true script

/-- A script without its listener calls. -/
structure LiftedListeners where
  /-- The edits that cut the calls out. -/
  edits : List Edit
  /-- What was cut out, in order. -/
  listeners : List Listener
  deriving Repr, DecidableEq

/-- The script that is left. -/
def LiftedListeners.script (x : LiftedListeners) : Text := Edit.output x.edits

/-- Lift all listener calls out of a script. -/
def liftListeners (v : Vocabulary) (script : Text) : Except Fault LiftedListeners :=
  (listenerSteps v script).map fun steps => ⟨Step.edits steps, Step.values steps⟩

end ElementScript
