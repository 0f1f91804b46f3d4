import ElementScript.Diagnostic.Cause
import ElementScript.Scan.QuoteState

/-!
# Brace depth

The flat scanner: it counts the braces that stand in code, and passes over literals and escaped
characters. What it makes of a text depends on the state at its start only, so scans compose
(`BraceState.run_append`) and the starting depth is carried through (`BraceState.run_depth_add`).
`closeBlock` cuts a text after the first brace that brings the depth to zero.
-/

namespace ElementScript

/-- Where the flat scanner stands. -/
structure BraceState extends QuoteState where
  /-- Braces opened in code less those closed. -/
  depth : Int
  deriving Repr, DecidableEq

namespace BraceState

/-- In code, at the given depth. -/
def atDepth (depth : Int) : BraceState := { QuoteState.code with depth }

/-- What a character adds to the depth when it is read as code. -/
def weight (c : Char) : Int := if c = '\x7b' then 1 else if c = '\x7d' then -1 else 0

/-- Pass one character. -/
def step (s : BraceState) (c : Char) : BraceState :=
  { s.toQuoteState.step c with depth := s.depth + if s.inCode then weight c else 0 }

/-- Pass a text. -/
def run (s : BraceState) (t : Text) : BraceState := t.foldl step s

@[simp] theorem run_nil (s : BraceState) : s.run [] = s := rfl

@[simp] theorem run_cons (s : BraceState) (c : Char) (t : Text) :
    s.run (c :: t) = (s.step c).run t := rfl

@[simp] theorem run_append (s : BraceState) (t u : Text) : s.run (t ++ u) = (s.run t).run u := by
  simp [run]

@[simp] theorem step_toQuoteState (s : BraceState) (c : Char) :
    (s.step c).toQuoteState = s.toQuoteState.step c := rfl

theorem run_toQuoteState (s : BraceState) (t : Text) :
    (s.run t).toQuoteState = s.toQuoteState.run t := by
  induction t generalizing s with
  | nil => rfl
  | cons c t ih => simp [ih]

/-- A scan that starts deeper stays deeper by as much. -/
theorem run_depth_add (s : BraceState) (n : Int) (t : Text) :
    { s with depth := s.depth + n }.run t = { s.run t with depth := (s.run t).depth + n } := by
  induction t generalizing s with
  | nil => rfl
  | cons c t ih =>
    rw [run_cons, run_cons, ← ih]
    congr 1
    simp only [step, BraceState.mk.injEq, true_and, QuoteState.inCode]
    omega

end BraceState

/-! ### The end of a block -/

/-- Go on from the state `s` with the characters passed in `passed`, last one first, up to the first
point at which the depth is zero. -/
def closeFrom (s : BraceState) (passed : Text) : Text → Except BraceState (Text × Text)
  | [] => .error s
  | c :: t =>
    if (s.step c).depth = 0 then .ok (passed.reverse, t) else closeFrom (s.step c) (c :: passed) t

/-- What stands between an opening brace, read just before, and the brace that closes it, and what
comes after that. A block that is not closed gives the state at the end of the text. -/
def closeBlock (t : Text) : Except BraceState (Text × Text) := closeFrom (.atDepth 1) [] t

/-- The offset at which the literal was opened in which a scan from state `s` over the text ends.
The text is at `offset`, and the last opening quote before it at `opened`. -/
def openingQuoteFrom (s : QuoteState) (offset opened : Nat) : Text → Nat
  | [] => opened
  | c :: t =>
    openingQuoteFrom (s.step c) (offset + c.utf8Size)
      (if s.quote.isNone && (s.step c).quote.isSome then offset else opened) t

/-- The fault of a block that is not closed: `s` is the state at the end of the text `t` that
follows its opening brace, and offsets count from that brace. -/
def unclosedBlock (s : BraceState) (t : Text) : Fault :=
  match s.quote with
  | some q => ⟨.unterminatedLiteral q, openingQuoteFrom .code 1 0 t⟩
  | none => ⟨.blockNeverClosed s.depth.toNat, 0⟩

end ElementScript
