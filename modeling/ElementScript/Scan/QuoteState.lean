import ElementScript.Text

/-!
# Literals and escapes

The least that a scan has to know of the script: whether it is inside a quoted literal, and whether
a backslash is waiting for the character that it escapes. Templates are literals like the others.
-/

namespace ElementScript

/-- Where a scan stands with regard to literals. -/
structure QuoteState where
  /-- The quote that closes the current literal. -/
  quote : Option Char
  /-- The next character is escaped. -/
  escaped : Bool
  deriving Repr, DecidableEq

namespace QuoteState

/-- Outside of any literal, with nothing escaped. -/
def code : QuoteState := ⟨none, false⟩

/-- Whether the next character is read as code. -/
def inCode (s : QuoteState) : Bool := s.quote.isNone && !s.escaped

/-- Pass one character. A backslash escapes its successor, in a literal and in code. -/
def step (s : QuoteState) (c : Char) : QuoteState :=
  if s.escaped then { s with escaped := false }
  else if c = '\\' then { s with escaped := true }
  else match s.quote with
    | some q => if c = q then code else s
    | none => if Text.isQuote c then ⟨some c, false⟩ else s

/-- Pass a text. -/
def run (s : QuoteState) (t : Text) : QuoteState := t.foldl step s

@[simp] theorem run_nil (s : QuoteState) : s.run [] = s := rfl

@[simp] theorem run_cons (s : QuoteState) (c : Char) (t : Text) :
    s.run (c :: t) = (s.step c).run t := rfl

@[simp] theorem run_append (s : QuoteState) (t u : Text) : s.run (t ++ u) = (s.run t).run u := by
  simp [run]

theorem inCode_iff {s : QuoteState} : s.inCode ↔ s = code := by
  cases s with
  | mk q e => cases q <;> cases e <;> simp [inCode, code]

end QuoteState

end ElementScript
