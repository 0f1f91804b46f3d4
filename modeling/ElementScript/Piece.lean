import ElementScript.SourceMap

/-!
# Pieces and edits

A text can be put together from pieces: any ranges of a source, in any order and as often as wanted,
with new text between them (`Piece`).

To edit a text is to go over it from left to right, by a list of edits in the order of the source:
each character is kept, or a stretch of the source is replaced by new text (`Edit`). The source
(`Edit.source`), the edited text (`Edit.output`) and the way back (`SourceMap.ofEdits`) are read off
the one list, so they cannot disagree.
-/

namespace ElementScript

/-! ### Pieces -/

/-- A piece of a text put together from a source. -/
inductive Piece where
  /-- The bytes of the source from `start` up to `stop`. -/
  | copied (start stop : Nat)
  /-- New text that stands for the place `source` of the source. -/
  | inserted (text : Text) (source : Nat)
  deriving Repr, DecidableEq

namespace Piece

/-- The text of the piece; none for a range that is reversed, runs past the end or splits a
character. -/
def text? (source : Text) : Piece → Option Text
  | copied start stop => Text.slice? start stop source
  | inserted text _ => some text

/-- The span that the piece leaves at `output`, where its text takes `length` bytes. -/
def span (output length : Nat) : Piece → Span
  | copied start _ => ⟨output, start, length, true⟩
  | inserted _ source => ⟨output, source, length, false⟩

/-- Append the pieces to the text `done` of `output` bytes, whose parts are last first, and whose
map is `m`. -/
def joinFrom? (source : Text) (done : List Text) (output : Nat) (m : SourceMap) :
    List Piece → Option (Text × SourceMap)
  | [] => some (done.reverse.flatten, m)
  | p :: ps => (p.text? source).bind fun text =>
    let length := Text.byteSize text
    joinFrom? source (text :: done) (output + length) (m.push (p.span output length)) ps

/-- The text made of the pieces in order, with the way back to the source. -/
def join? (source : Text) (pieces : List Piece) : Option (Text × SourceMap) :=
  joinFrom? source [] 0 .empty pieces

end Piece

/-! ### Edit lists -/

/-- One step in editing a text, left to right. -/
inductive Edit where
  /-- The character stays. -/
  | keep (c : Char)
  /-- The stretch `old` of the source makes way for `new`. -/
  | replace (old new : Text)
  deriving Repr, DecidableEq

namespace Edit

/-- The source text that the edit covers. -/
def before : Edit → Text
  | keep c => [c]
  | replace old _ => old

/-- The text that the edit leaves. -/
def after : Edit → Text
  | keep c => [c]
  | replace _ new => new

/-- The span that the edit leaves at `output` when it covers the source from `source` on. -/
def span (output source : Nat) : Edit → Span
  | keep c => ⟨output, source, c.utf8Size, true⟩
  | replace _ new => ⟨output, source, Text.byteSize new, false⟩

/-- The text that a list of edits goes over. -/
def source (edits : List Edit) : Text := edits.flatMap before

/-- The text that a list of edits makes. -/
def output (edits : List Edit) : Text := edits.flatMap after

@[simp] theorem source_nil : source [] = [] := rfl

@[simp] theorem output_nil : output [] = [] := rfl

@[simp] theorem source_cons (e : Edit) (es : List Edit) :
    source (e :: es) = e.before ++ source es := rfl

@[simp] theorem output_cons (e : Edit) (es : List Edit) :
    output (e :: es) = e.after ++ output es := rfl

@[simp] theorem source_append (es fs : List Edit) : source (es ++ fs) = source es ++ source fs := by
  simp [source]

@[simp] theorem output_append (es fs : List Edit) : output (es ++ fs) = output es ++ output fs := by
  simp [output]

/-- Keep a whole text. -/
def keepAll (t : Text) : List Edit := t.map keep

theorem keepAll_append (t u : Text) : keepAll (t ++ u) = keepAll t ++ keepAll u := List.map_append

@[simp] theorem source_keepAll (t : Text) : source (keepAll t) = t := by
  induction t with
  | nil => rfl
  | cons c t ih => simp_all [keepAll, before]

@[simp] theorem output_keepAll (t : Text) : output (keepAll t) = t := by
  induction t with
  | nil => rfl
  | cons c t ih => simp_all [keepAll, after]

end Edit

namespace SourceMap

/-- Add the spans of the edits to `m`, with the first edit at `output` over the source at
`source`. -/
def pushEdits (m : SourceMap) (output source : Nat) : List Edit → SourceMap
  | [] => m
  | e :: es =>
    (m.push (e.span output source)).pushEdits
      (output + Text.byteSize e.after) (source + Text.byteSize e.before) es

/-- The way back from the output of a list of edits to its source. -/
def ofEdits (edits : List Edit) : SourceMap := empty.pushEdits 0 0 edits

end SourceMap

end ElementScript
