import ElementScript.Scan.BraceState

/-!
# Blocks

A `Block` is a pair of braces of a script that belong together, with the place from which it was
looked for. `Block.firstFrom` takes the first brace at or after a place and walks to its partner.
-/

namespace ElementScript

/-- A block of a script: offsets of the place of the search, of the opening brace, and of the place
after the closing one. -/
structure Block where
  start : Nat
  opening : Nat
  stop : Nat
  deriving Repr, DecidableEq

namespace Block

/-- The script from the place of the search to the end of the block. -/
def text? (b : Block) (script : Text) : Option Text := Text.slice? b.start b.stop script

/-- The script between the place of the search and the opening brace. -/
def head? (b : Block) (script : Text) : Option Text := Text.slice? b.start b.opening script

/-- The script between the braces. -/
def body? (b : Block) (script : Text) : Option Text :=
  Text.slice? (b.opening + 1) (b.stop - 1) script

/-- The block that was looked for from `start`, opens at `opening` and has the given body. -/
def ofBody (start opening : Nat) (body : Text) : Block :=
  ⟨start, opening, opening + 1 + Text.byteSize body + 1⟩

end Block

/-- The first block that opens at or after the place `start`. -/
def Block.firstFrom (script : Text) (start : Nat) : Except Fault Block :=
  match Text.splitAt? start script with
  | none => .error ⟨.blockExpected, start⟩
  | some (_, rest) =>
    let opening := start + Text.byteSize (rest.takeWhile (· != '{'))
    match rest.dropWhile (· != '{') with
    | [] => .error ⟨.blockExpected, start⟩
    | _ :: inside =>
      match closeBlock inside with
      | .ok (body, _) => .ok (.ofBody start opening body)
      | .error s => .error ((unclosedBlock s inside).shift opening)

end ElementScript
