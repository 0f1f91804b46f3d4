import ElementScript.Diagnostic.Cause
import ElementScript.Text

/-!
# Reports

A `Diagnostic` is what an author gets to see: a heading, a message, advice, and the position and
line of the script that they are about. `Diagnostic.render` lays it out in rows; the caret row and
the source row have gutters of one width, so the caret stands under the column it points at.
-/

namespace ElementScript

/-- A problem reported to the author of a script. -/
structure Diagnostic where
  kind : ProblemKind
  message : String
  help? : Option String
  position? : Option Position
  sourceLine? : Option Text
  deriving Repr, DecidableEq

namespace Diagnostic

/-- A report without a place. -/
def ofCause (cause : Cause) : Diagnostic :=
  ⟨cause.kind, cause.message, cause.help?, none, none⟩

/-- Point the report at an offset of a script. -/
def pointAt (d : Diagnostic) (script : Text) (offset : Nat) : Diagnostic :=
  let position := Position.locate script offset
  { d with position? := some position, sourceLine? := Text.line? script position.line }

/-- The report of a fault found in a script. -/
def ofFault (script : Text) (fault : Fault) : Diagnostic :=
  (ofCause fault.cause).pointAt script fault.offset

/-! ### Layout -/

/-- The marks put around the parts of what is printed for a reader. -/
structure Palette where
  /-- Before headings of errors and the caret. -/
  error : String
  /-- Before gutters and the word `file`. -/
  dim : String
  /-- Before the word `help`. -/
  help : String
  /-- Before messages and summaries that stand alone. -/
  bold : String
  /-- Before the sign for a script that passed. -/
  passed : String
  /-- Before the sign for one that failed. -/
  failed : String
  /-- After any of these. -/
  reset : String
  deriving Repr, DecidableEq

/-- No marks. -/
def Palette.plain : Palette := ⟨"", "", "", "", "", "", ""⟩

/-- Terminal colours. -/
def Palette.terminal : Palette :=
  ⟨"\x1b[1;31m", "\x1b[2m", "\x1b[1;38;5;73m", "\x1b[1m", "\x1b[32m", "\x1b[31m", "\x1b[0m"⟩

/-- The text, with spaces in front up to `width` characters. -/
def alignRight (width : Nat) (s : String) : String :=
  String.ofList (List.replicate (width - s.length) ' ') ++ s

/-- The digits that a gutter has room for: at least two. -/
def gutterWidth (p : Position) : Nat := max 2 (Nat.repr (p.line + 1)).length

/-- The part of a row left of the script, with `label` in it. -/
def gutter (palette : Palette) (p : Position) (label : String) : String :=
  palette.dim ++ alignRight (gutterWidth p) label ++ " |" ++ palette.reset

/-- The row that shows the line of the script. -/
def sourceRow (palette : Palette) (p : Position) (line : Text) : String :=
  gutter palette p (Nat.repr (p.line + 1)) ++ " " ++ String.ofList line

/-- The row below it, with a caret under the column. -/
def caretRow (palette : Palette) (p : Position) : String :=
  gutter palette p "" ++ " " ++ String.ofList (List.replicate p.column ' ') ++
    palette.error ++ "^" ++ palette.reset

/-- The row that names the file, with line and column counted from one. -/
def fileRow (d : Diagnostic) (palette : Palette) (filename : String) : String :=
  " " ++ palette.dim ++ "file:" ++ palette.reset ++ " " ++ filename ++
    match d.position? with
    | some p => ":" ++ Nat.repr (p.line + 1) ++ ":" ++ Nat.repr (p.column + 1)
    | none => ""

/-- The row with the heading and the message. -/
def errorRow (d : Diagnostic) (palette : Palette) : String :=
  palette.error ++ "error:" ++ palette.reset ++ " " ++ d.kind.title ++ ": " ++ d.message

/-- The rows that show the place in the script. -/
def excerpt (d : Diagnostic) (palette : Palette) : List String :=
  match d.position?, d.sourceLine? with
  | some p, some line => [gutter palette p "", sourceRow palette p line, caretRow palette p]
  | _, _ => []

/-- The rows of advice, after an empty one. -/
def helpRows (d : Diagnostic) (palette : Palette) : List String :=
  match d.help? with
  | none => []
  | some help =>
    match (Text.lines help.toList).map String.ofList with
    | [] => [""]
    | first :: others =>
      "" :: (" " ++ palette.help ++ "help:" ++ palette.reset ++ " " ++ first) ::
        others.map ("       " ++ ·)

/-- All rows of the report, between two empty ones. -/
def rows (d : Diagnostic) (palette : Palette) (filename : String) : List String :=
  ["", d.fileRow palette filename, d.errorRow palette] ++ d.excerpt palette ++
    d.helpRows palette ++ [""]

/-- The report as text, each row ended by a newline. -/
def render (d : Diagnostic) (palette : Palette) (filename : String) : String :=
  String.join ((d.rows palette filename).map (· ++ "\n"))

/-- The report in one line. -/
def summary (d : Diagnostic) : String :=
  match d.position? with
  | some p => d.message ++ " at " ++ Nat.repr (p.line + 1) ++ ":" ++ Nat.repr (p.column + 1)
  | none => d.message

end Diagnostic

end ElementScript
