import ElementScript.Text

/-!
# Why a script is refused

A `Cause` says what is wrong, with the words of the script that the report quotes; its wording is in
`Cause.message` and `Cause.help?` alone. A `Fault` is a cause at a place of the text in which it was
found, so a fault of a part becomes one of the whole by `Fault.shift`.
-/

namespace ElementScript

/-- The kinds of problem that a report is headed by. -/
inductive ProblemKind where
  /-- A block that is missing, is not closed, or is followed by something. -/
  | block
  /-- A change listener that cannot be read. -/
  | listener
  /-- A script longer than the limit. -/
  | size
  /-- A vocabulary that the passes cannot work with. -/
  | vocabulary
  deriving Repr, DecidableEq

/-- The heading of a report. -/
def ProblemKind.title : ProblemKind → String
  | block => "Malformed block"
  | listener => "Malformed change listener"
  | size => "Input too large"
  | vocabulary => "Invalid translation table"

/-- What can be wrong with a script or with a vocabulary. -/
inductive Cause where
  /-- No `{` follows. -/
  | blockExpected
  /-- The script ends inside a literal of a block. -/
  | unterminatedLiteral (quote : Char)
  /-- The script ends inside a block, with that many braces to close. -/
  | blockNeverClosed (missing : Nat)
  | listenerWithoutHandler (token : Text)
  | listenerExtraArgument (token : Text)
  | listenerWithoutAttribute (token : Text)
  | listenerParameters (observed : Text)
  | loadHandlerWithoutBlock (marker : Text)
  | loadHandlerExtraArgument (marker : Text)
  | scriptTooLarge (size limit : Nat)
  | emptyListenerToken
  | emptyLoadHandlerMarker
  | emptyLifecycleMarker (callback : Text)
  | badCallback (callback : Text)
  | badValueName (name : Text)
  | equalValueNames
  deriving Repr, DecidableEq

namespace Cause

/-- The kind of problem. -/
def kind : Cause → ProblemKind
  | blockExpected | unterminatedLiteral _ | blockNeverClosed _ => .block
  | loadHandlerWithoutBlock _ | loadHandlerExtraArgument _ => .block
  | listenerWithoutHandler _ | listenerExtraArgument _ => .listener
  | listenerWithoutAttribute _ | listenerParameters _ => .listener
  | scriptTooLarge _ _ => .size
  | emptyListenerToken | emptyLoadHandlerMarker | emptyLifecycleMarker _ => .vocabulary
  | badCallback _ | badValueName _ | equalValueNames => .vocabulary

/-- One sentence that says what is wrong. -/
def message : Cause → String
  | blockExpected => "Expected a `\x7b` block"
  | unterminatedLiteral quote =>
    "Unterminated " ++ quote.toString ++ " string literal inside block"
  | blockNeverClosed _ => "Block is never closed"
  | listenerWithoutHandler word | loadHandlerWithoutBlock word =>
    "`" ++ String.ofList word ++ "` has no inline handler block"
  | listenerExtraArgument word | loadHandlerExtraArgument word =>
    "`" ++ String.ofList word ++ "` takes no arguments after its handler block"
  | listenerWithoutAttribute token =>
    "`" ++ String.ofList token ++ "` is missing a quoted attribute name"
  | listenerParameters observed =>
    "Cannot read the handler parameters of the \"" ++ String.ofList observed ++ "\" listener"
  | scriptTooLarge size limit =>
    "Script is " ++ Nat.repr size ++ " bytes, the limit is " ++ Nat.repr limit ++ " bytes"
  | emptyListenerToken => "Listener token must not be empty"
  | emptyLoadHandlerMarker => "Load handler marker must not be empty"
  | emptyLifecycleMarker callback =>
    "Lifecycle marker for `" ++ String.ofList callback ++ "` must not be empty"
  | badCallback callback => "`" ++ String.ofList callback ++ "` is not a valid callback name"
  | badValueName name => "`" ++ String.ofList name ++ "` is not a valid parameter name"
  | equalValueNames => "Old and new value names must differ"

/-- Advice on how to mend it. -/
def help? : Cause → Option String
  | blockExpected => some "Sugar invocations must be followed by a function body in braces"
  | unterminatedLiteral quote => some ("Close the string with a matching " ++ quote.toString)
  | blockNeverClosed missing =>
    some (Nat.repr missing ++ " closing brace" ++ (if missing = 1 then " is" else "s are") ++
      " missing before end of script")
  | listenerWithoutHandler token =>
    some ("Write the handler inline: " ++ String.ofList token ++
      "(\"attr\", (oldValue, newValue) => \x7b ... \x7d)")
  | loadHandlerWithoutBlock marker =>
    some ("Write the handler inline: " ++ String.ofList marker ++ "(() => \x7b ... \x7d)")
  | listenerExtraArgument _ | loadHandlerExtraArgument _ =>
    some "Remove the trailing arguments; the handler block must be the last argument"
  | listenerWithoutAttribute _ =>
    some "Attribute names may contain letters, digits, `_` and `-`"
  | listenerParameters _ =>
    some "Use plain identifiers: (oldValue, newValue) => \x7b ... \x7d or value => \x7b ... \x7d"
  | scriptTooLarge _ _ =>
    some "Split the component or raise maxScriptBytes in the configuration"
  | emptyListenerToken | emptyLoadHandlerMarker | emptyLifecycleMarker _ => none
  | badCallback _ | badValueName _ | equalValueNames => none

end Cause

/-- A cause at an offset of the text in which it was found. -/
structure Fault where
  cause : Cause
  offset : Nat
  deriving Repr, DecidableEq

/-- The fault seen from a text that has `n` bytes more in front. -/
def Fault.shift (n : Nat) (f : Fault) : Fault := { f with offset := n + f.offset }

@[simp] theorem Fault.shift_zero (f : Fault) : f.shift 0 = f := by simp [shift]

@[simp] theorem Fault.shift_shift (f : Fault) (m n : Nat) :
    (f.shift n).shift m = f.shift (m + n) := by
  simp [shift, Nat.add_assoc]

end ElementScript
