import ElementScript.Diagnostic
import ElementScript.Pass

/-!
# Compiling a script

A `Compiler` holds a vocabulary without flaws and a limit on the size of scripts, and no state:
`Compiler.compile` gives the same answer for the same script each time.
-/

namespace ElementScript

/-- What a component's script becomes. -/
structure CompiledScript where
  /-- The members of the custom element class. -/
  members : Text
  /-- What to run once the class is defined. -/
  loadHandler? : Option Text
  /-- The attributes observed, in order and with repetitions. -/
  observedAttributes : List Text
  warnings : List Warning
  deriving Repr, DecidableEq

/-- The settings of a compiler. -/
structure Options where
  vocabulary : Vocabulary
  /-- The size in bytes beyond which a script is refused unread. -/
  maxScriptBytes : Nat
  deriving Repr, DecidableEq

/-- The usual vocabulary, and at most one mebibyte. -/
def Options.standard : Options := ⟨.standard, 1024 * 1024⟩

/-- Settings whose vocabulary has no flaw. -/
structure Compiler where
  options : Options
  flawless : options.vocabulary.flaw? = none

namespace Compiler

/-- A compiler with the given settings. -/
def ofOptions (options : Options) : Except Cause Compiler :=
  match h : options.vocabulary.flaw? with
  | none => .ok ⟨options, h⟩
  | some flaw => .error flaw

/-- The compiler with the usual settings. -/
def standard : Compiler := ⟨.standard, by decide⟩

/-- Compile a script. -/
def compile (compiler : Compiler) (script : Text) : Except Diagnostic CompiledScript :=
  let size := Text.byteSize script
  let limit := compiler.options.maxScriptBytes
  if limit < size then .error (.ofCause (.scriptTooLarge size limit))
  else
    match runPasses compiler.options.vocabulary Pass.standard script with
    | .error f => .error (.ofFault script f)
    | .ok ⟨members, harvest, _⟩ =>
      .ok ⟨members, harvest.loadHandler?, Listener.observedAttributes harvest.listeners,
        harvest.warnings⟩

end Compiler

/-- Compile a script with the usual vocabulary and limit. -/
def compile (script : Text) : Except Diagnostic CompiledScript := Compiler.standard.compile script

end ElementScript
