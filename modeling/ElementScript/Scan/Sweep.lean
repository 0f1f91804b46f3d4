import ElementScript.Diagnostic.Cause
import ElementScript.Piece

/-!
# Sweeping a text for calls

Every pass that replaces calls goes over its text once, left to right: a stretch found at a boundary
is replaced, and the sweep goes on behind it; every other character is kept. A sweep is recorded as
a list of steps, from which the edits (`Step.edits`) and the things found (`Step.values`) are read
off.
-/

namespace ElementScript

/-- A stretch found at the start of a text. -/
structure Found (α : Type) where
  /-- The stretch. -/
  old : Text
  /-- What replaces it. -/
  new : Text
  /-- What was read from it. -/
  value : α
  deriving Repr, DecidableEq

/-- One step of a sweep. -/
inductive Step (α : Type) where
  | keep (c : Char)
  | found (x : Found α)
  deriving Repr, DecidableEq

namespace Step

variable {α : Type}

/-- The edit of the step. -/
def edit : Step α → Edit
  | keep c => .keep c
  | found x => .replace x.old x.new

/-- What was read in the step. -/
def value? : Step α → Option α
  | keep _ => none
  | found x => some x.value

/-- The edits of the steps. -/
def edits (steps : List (Step α)) : List Edit := steps.map edit

/-- All that was read in the steps, in order. -/
def values (steps : List (Step α)) : List α := steps.filterMap value?

end Step

variable {α : Type}

/-- Sweep on at byte `offset`. The first `skip` characters belong to the last stretch found; `steps`
are those so far, last one first. With `joins`, the place behind a stretch is a boundary; any other
place is one if a blank stands before it. -/
def sweepFrom (find : Text → Except Fault (Option (Found α))) (joins : Bool)
    (offset skip : Nat) (boundary : Bool) (steps : List (Step α)) :
    Text → Except Fault (List (Step α))
  | [] => .ok steps.reverse
  | c :: t =>
    match skip with
    | skip + 1 =>
      sweepFrom find joins (offset + c.utf8Size) skip (joins || Text.isBlank c) steps t
    | 0 =>
      match if boundary then find (c :: t) else .ok none with
      | .error f => .error (f.shift offset)
      | .ok none =>
        sweepFrom find joins (offset + c.utf8Size) 0 (Text.isBlank c) (.keep c :: steps) t
      | .ok (some x) =>
        sweepFrom find joins (offset + c.utf8Size) (x.old.length - 1) (joins || Text.isBlank c)
          (.found x :: steps) t

/-- Sweep a text, whose start is a boundary. -/
def sweep (find : Text → Except Fault (Option (Found α))) (joins : Bool) (t : Text) :
    Except Fault (List (Step α)) :=
  sweepFrom find joins 0 0 true [] t

/-- Sweep a text for stretches that are found without fault. -/
def sweepAll (find : Text → Option (Found α)) (joins : Bool) (t : Text) : List (Step α) :=
  match sweep (fun text => .ok (find text)) joins t with
  | .ok steps => steps
  | .error _ => []

theorem sweepFrom_ok (find : Text → Option (Found α)) (joins : Bool) (offset skip : Nat)
    (boundary : Bool) (steps : List (Step α)) (t : Text) :
    ∃ all,
      sweepFrom (fun text => .ok (find text)) joins offset skip boundary steps t = .ok all := by
  induction t generalizing offset skip boundary steps with
  | nil => exact ⟨_, rfl⟩
  | cons c t ih =>
    cases skip with
    | succ skip => exact ih ..
    | zero =>
      unfold sweepFrom
      dsimp only
      split
      · rename_i h
        split at h <;> cases h
      · exact ih ..
      · exact ih ..

/-- A sweep finds a fault only where its search does. -/
theorem sweep_ok (find : Text → Option (Found α)) (joins : Bool) (t : Text) :
    sweep (fun text => .ok (find text)) joins t = .ok (sweepAll find joins t) := by
  obtain ⟨all, h⟩ := sweepFrom_ok find joins 0 0 true [] t
  simp only [sweepAll, sweep, h]

end ElementScript
