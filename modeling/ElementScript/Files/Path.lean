import ElementScript.Text

/-!
# Paths

Paths are texts whose parts are separated by slashes. They are joined as texts: nothing is resolved,
and an absolute path replaces what it is joined to. Repeated slashes, a slash at the end and parts
that are a single dot count only where a path is taken apart.
-/

namespace ElementScript

/-- A path as it is written. -/
abbrev Path := Text

namespace Path

/-- Whether the path begins at the root. -/
def isAbsolute (p : Path) : Bool := p.head? == some '/'

/-- The path `q`, seen from the directory `p`. -/
def join (p q : Path) : Path :=
  if isAbsolute q then q
  else if p.isEmpty || p.getLast? == some '/' then p ++ q
  else p ++ '/' :: q

/-- The parts between slashes, empty ones included. -/
def parts (p : Path) : List Text := p.splitOnP (· == '/')

/-- Drop empty parts and dots from the front of the reversed parts of a path. -/
def dropDots (parts : List Text) : List Text :=
  parts.dropWhile fun part => part.isEmpty || part == ['.']

/-- The parts of a path before which nothing is dropped: the empty part that stands for the root, or
a dot at the start. -/
def anchor? (p : Path) : Option Text :=
  match parts p with
  | [] :: _ :: _ => some []
  | ['.'] :: _ => some ['.']
  | _ => none

/-- The parts that can be dropped from the end, last one first. -/
def body (p : Path) : List Text :=
  dropDots (if (anchor? p).isSome then (parts p).tail else parts p).reverse

/-- A path of an anchor and of parts, last one first. -/
def assemble (anchor? : Option Text) (reversed : List Text) : Path :=
  match anchor? with
  | some anchor =>
    if reversed.isEmpty && anchor.isEmpty then ['/']
    else ['/'].intercalate (anchor :: reversed.reverse)
  | none => ['/'].intercalate reversed.reverse

/-- The path without its last part; none for the empty path and the root. -/
def parent? (p : Path) : Option Path :=
  match body p, anchor? p with
  | _ :: rest, anchor => some (assemble anchor (dropDots rest))
  | [], some ['.'] => some []
  | [], _ => none

/-- The last part of the path, unless it leads upwards. -/
def fileName? (p : Path) : Option Text :=
  match body p with
  | name :: _ => if name == ['.', '.'] then none else some name
  | [] => none

end Path

end ElementScript
