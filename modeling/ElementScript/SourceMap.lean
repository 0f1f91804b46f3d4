import ElementScript.Text

/-!
# From an edited text back to its source

A `SourceMap` lists the spans of an edited text in the order in which they were written. A
copied span leads back byte by byte to the text it was copied from; a generated one leads back to
the single place at which it stands. `SourceMap.toSource` finds the span by binary search.
-/

namespace ElementScript

/-- A stretch of an edited text, `length` bytes from `output` on, and where it comes from. -/
structure Span where
  output : Nat
  source : Nat
  length : Nat
  copied : Bool
  deriving Repr, DecidableEq

/-- The source offset of the byte at `offset`; an offset past the span counts as its end. -/
def Span.toSource (s : Span) (offset : Nat) : Nat :=
  if s.copied then s.source + min (offset - s.output) s.length else s.source

/-- The spans of an edited text. -/
structure SourceMap where
  spans : Array Span
  deriving Repr, DecidableEq

namespace SourceMap

/-- The map of a text without spans. -/
def empty : SourceMap := ⟨#[]⟩

/-- Add a span, unless it has no bytes. -/
def push (m : SourceMap) (s : Span) : SourceMap :=
  if s.length = 0 then m else ⟨m.spans.push s⟩

/-- Add `length` bytes at `output` that were copied from `source` on. -/
def copied (m : SourceMap) (output source length : Nat) : SourceMap :=
  m.push ⟨output, source, length, true⟩

/-- Add `length` bytes at `output` that were generated for the place `source`. -/
def generated (m : SourceMap) (output source length : Nat) : SourceMap :=
  m.push ⟨output, source, length, false⟩

/-- The map of a text of `length` bytes that was left as it was. -/
def identity (length : Nat) : SourceMap := empty.copied 0 0 length

/-- Halve the `size` numbers from `base` on, keeping the upper half while `p` holds at its start,
and count up to the last number kept that has `p`. When `p` holds of the numbers below some bound
and of no other, this is the bound. -/
def partitionPoint (p : Nat → Bool) (base size : Nat) : Nat :=
  if 1 < size then
    let half := size / 2
    partitionPoint p (if p (base + half) then base + half else base) (size - half)
  else if p base then base + 1 else base
termination_by size

/-- The source offset that the byte at `offset` of the edited text comes from. Before the first
span it is `offset` itself. -/
def toSource (m : SourceMap) (offset : Nat) : Nat :=
  let startsBy (i : Nat) : Bool := (m.spans[i]?).any (·.output ≤ offset)
  match partitionPoint startsBy 0 m.spans.size with
  | 0 => offset
  | i + 1 => (m.spans[i]?).elim offset (·.toSource offset)

end SourceMap

end ElementScript
