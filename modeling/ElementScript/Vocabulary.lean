import ElementScript.Diagnostic.Cause

/-!
# The words of the sugar

A `Vocabulary` names the markers that scripts use and the names that generated code uses.
`Vocabulary.flaw?` tells why a vocabulary cannot be worked with; the first reason counts.
-/

namespace ElementScript

/-- A lifecycle marker, without the common prefix, and the callback that it stands for. -/
structure LifecycleEntry where
  marker : Text
  callback : Text
  deriving Repr, DecidableEq

/-- The words of the sugar and of the code that replaces it. -/
structure Vocabulary where
  lifecyclePrefix : Text
  lifecycle : List LifecycleEntry
  listenerToken : Text
  oldValueName : Text
  newValueName : Text
  loadHandlerMarker : Text
  deriving Repr, DecidableEq

namespace Vocabulary

/-- The words that component authors use. -/
def standard : Vocabulary where
  lifecyclePrefix := "::".toList
  lifecycle := [
    ⟨"connected".toList, "connectedCallback".toList⟩,
    ⟨"disconnected".toList, "disconnectedCallback".toList⟩,
    ⟨"moved".toList, "adoptedCallback".toList⟩]
  listenerToken := "addChangeListener".toList
  oldValueName := "oldValue".toList
  newValueName := "newValue".toList
  loadHandlerMarker := "::initialized".toList

/-- The marker of a lifecycle entry as scripts write it. -/
def fullMarker (v : Vocabulary) (entry : LifecycleEntry) : Text := v.lifecyclePrefix ++ entry.marker

/-- What is wrong with a lifecycle entry. -/
def entryFlaw? (entry : LifecycleEntry) : Option Cause :=
  if (Text.trim entry.marker).isEmpty then some (.emptyLifecycleMarker entry.callback)
  else if !Text.isIdentifier entry.callback then some (.badCallback entry.callback)
  else none

/-- What is wrong with the name of a value. -/
def nameFlaw? (name : Text) : Option Cause :=
  if Text.isIdentifier name then none else some (.badValueName name)

/-- What is wrong with the vocabulary. -/
def flaw? (v : Vocabulary) : Option Cause :=
  if (Text.trim v.listenerToken).isEmpty then some .emptyListenerToken
  else if (Text.trim v.loadHandlerMarker).isEmpty then some .emptyLoadHandlerMarker
  else
    (v.lifecycle.findSome? entryFlaw?).or <| (nameFlaw? v.oldValueName).or <|
      (nameFlaw? v.newValueName).or <|
        if v.oldValueName = v.newValueName then some .equalValueNames else none

end Vocabulary

end ElementScript
