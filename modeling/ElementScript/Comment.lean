import ElementScript.Piece
import ElementScript.Scan.QuoteState

/-!
# Comments

Comments are taken out by a machine that reads one character at a time (`CommentState.step`) and
writes edits. A line comment goes up to its newline, which stays. A block comment leaves the
newlines it spanned, or one space, so that no line moves and nothing joins up across it; without an
end it goes up to the end of the script. Literals are left alone, and an escaped slash begins no
comment.
-/

namespace ElementScript

/-- Where the comment scan stands. -/
inductive CommentMode where
  /-- In the script proper. -/
  | script (quotes : QuoteState)
  /-- After a slash in code, not written yet. -/
  | slash
  /-- In a line comment. -/
  | line
  /-- In a block comment: its text so far, last character first, and whether a star was just read
  that can close it. -/
  | block (seen : Text) (star : Bool)
  deriving Repr, DecidableEq

/-- What a block comment leaves behind: the newlines in it, or else a space. -/
def commentRemains (comment : Text) : Text :=
  match comment.filter (· == '\n') with
  | [] => [' ']
  | newlines => newlines

/-- The comment scan: its mode, and the edits written so far, last one first. -/
structure CommentState where
  mode : CommentMode
  edits : List Edit
  deriving Repr, DecidableEq

namespace CommentState

/-- At the start of a script. -/
def start : CommentState := ⟨.script .code, []⟩

/-- Read one character. -/
def step (s : CommentState) (c : Char) : CommentState :=
  match s.mode with
  | .script quotes =>
    if quotes.inCode && c == '/' then { s with mode := .slash }
    else ⟨.script (quotes.step c), .keep c :: s.edits⟩
  | .slash =>
    if c = '/' then ⟨.line, .replace ['/', '/'] [] :: s.edits⟩
    else if c = '*' then { s with mode := .block ['*', '/'] false }
    else ⟨.script (QuoteState.code.step c), .keep c :: .keep '/' :: s.edits⟩
  | .line =>
    if c = '\n' then ⟨.script .code, .keep c :: s.edits⟩
    else { s with edits := .replace [c] [] :: s.edits }
  | .block seen star =>
    if star && c == '/' then
      let comment := (c :: seen).reverse
      ⟨.script .code, .replace comment (commentRemains comment) :: s.edits⟩
    else { s with mode := .block (c :: seen) (c == '*') }

/-- Read a text. -/
def run (s : CommentState) (t : Text) : CommentState := t.foldl step s

@[simp] theorem run_nil (s : CommentState) : s.run [] = s := rfl

@[simp] theorem run_cons (s : CommentState) (c : Char) (t : Text) :
    s.run (c :: t) = (s.step c).run t := rfl

@[simp] theorem run_append (s : CommentState) (t u : Text) : s.run (t ++ u) = (s.run t).run u := by
  simp [run]

/-- The edits for what is still unwritten at the end of the script. -/
def pending (s : CommentState) : List Edit :=
  match s.mode with
  | .script _ => []
  | .slash => [.keep '/']
  | .line => []
  | .block seen _ => [.replace seen.reverse []]

/-- All edits, when the script ends here. -/
def finish (s : CommentState) : List Edit := s.edits.reverse ++ s.pending

end CommentState

/-- The edits that take the comments out of a script. -/
def commentEdits (script : Text) : List Edit := (CommentState.start.run script).finish

/-- The script without its comments. -/
def withoutComments (script : Text) : Text := Edit.output (commentEdits script)

/-- The edits cover exactly what has been read. -/
theorem CommentState.source_finish_step (s : CommentState) (c : Char) :
    Edit.source (s.step c).finish = Edit.source s.finish ++ [c] := by
  unfold step
  split
  · split <;> simp_all [finish, pending, Edit.before]
  · split
    · simp_all [finish, pending, Edit.before]
    · split <;> simp_all [finish, pending, Edit.before]
  · split <;> simp_all [finish, pending, Edit.before]
  · split <;> simp_all [finish, pending, Edit.before]

theorem CommentState.source_finish_run (s : CommentState) (t : Text) :
    Edit.source (s.run t).finish = Edit.source s.finish ++ t := by
  induction t generalizing s with
  | nil => simp
  | cons c t ih => simp [ih, CommentState.source_finish_step]

/-- The edits that take out comments are edits of the script. -/
@[simp] theorem source_commentEdits (script : Text) :
    Edit.source (commentEdits script) = script :=
  (CommentState.source_finish_run .start script).trans <| by
    simp [CommentState.start, CommentState.finish, CommentState.pending]

end ElementScript
