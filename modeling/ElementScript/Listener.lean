import ElementScript.Vocabulary

/-!
# Change listeners

A listener tells what to run when an attribute of the element changes. The listeners of a script are
kept in the order of the script, repeated attributes included.

The class that a script becomes has one method for all its listeners, which switches on the name of
the attribute, and an accessor that lists the attributes observed. A repeated attribute gets a case
of its own, which the switch does not reach.
-/

namespace ElementScript

/-- A change listener of a script. -/
structure Listener where
  /-- The attribute that it observes. -/
  observed : Text
  /-- What it runs, in terms of the names that generated code gives to the two values. -/
  body : Text
  /-- The name that the author gave to the previous value. -/
  oldParam? : Option Text
  /-- The name that the author gave to the current value. -/
  newParam? : Option Text
  deriving Repr, DecidableEq

namespace Listener

/-- The attributes observed, in order and with repetitions. -/
def observedAttributes (listeners : List Listener) : List Text := listeners.map observed

/-- Go through `names`, where `seen` came before and `twice` are those of them that came more than
once, last one first. -/
def repeatedFrom (seen twice : List Text) : List Text → List Text
  | [] => twice.reverse
  | name :: names =>
    repeatedFrom (name :: seen)
      (if name ∈ seen ∧ name ∉ twice then name :: twice else twice) names

/-- The names that come more than once, each one once, in the order in which they came a second
time. -/
def repeated (names : List Text) : List Text := repeatedFrom [] [] names

/-- The attributes that more than one listener observes. -/
def repeatedAttributes (listeners : List Listener) : List Text :=
  repeated (observedAttributes listeners)

end Listener

/-! ### The generated dispatcher -/

namespace Dispatcher

/-- One step of indentation. -/
def indent : Text := "    ".toList

/-- A text in double quotes. -/
def quoted (t : Text) : Text := '\"' :: (t ++ ['\"'])

/-- The case of one listener; an empty body takes up no line. -/
def caseLines (l : Listener) : Text :=
  indent ++ indent ++ "case ".toList ++ quoted l.observed ++ ":\n".toList ++
    (if l.body.isEmpty then [] else indent ++ indent ++ indent ++ l.body ++ ['\n']) ++
    indent ++ indent ++ indent ++ "break;\n".toList

/-- The first line of the method. -/
def signature (v : Vocabulary) : Text :=
  "attributeChangedCallback(attr, ".toList ++ v.oldValueName ++ ", ".toList ++ v.newValueName ++
    ") \x7b\n".toList

/-- The method that tells the listeners of a change. -/
def method (v : Vocabulary) (listeners : List Listener) : Text :=
  signature v ++ indent ++ "switch(attr) \x7b\n".toList ++ listeners.flatMap caseLines ++
    indent ++ "\x7d\n\x7d".toList

/-- The accessor that lists the attributes observed. -/
def accessor (listeners : List Listener) : Text :=
  "static get observedAttributes() \x7b return [".toList ++
    ", ".toList.intercalate ((Listener.observedAttributes listeners).map quoted) ++
    "]; \x7d\n".toList

end Dispatcher

/-- The members that a class gets for its listeners, on lines of their own. -/
def dispatcherMembers (v : Vocabulary) (listeners : List Listener) : Text :=
  '\n' :: (Dispatcher.method v listeners ++ '\n' :: Dispatcher.accessor listeners)

end ElementScript
