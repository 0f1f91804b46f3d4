import ElementScript.Text

/-!
# Calls of a marker

Sugar is written as a call: a marker word, blanks and an opening parenthesis. A call counts at a
*boundary* only: at the start of the script, after a blank, or where the caller says so because the
text before was cut away. `seekCall` finds the leftmost call, and `callAt?` is what it looks for.
-/

namespace ElementScript

/-- The start of a text, read as a call. -/
structure Call where
  /-- The marker and the blanks after it. -/
  head : Text
  /-- The rest of the text, from the opening parenthesis on. -/
  args : Text
  deriving Repr, DecidableEq

/-- Whether the text begins with the parenthesis of a call. -/
def opensCall : Text → Bool
  | '(' :: _ => true
  | _ => false

/-- Read the start of the text as a call of the marker; no text calls the empty marker. -/
def callAt? (marker text : Text) : Option Call :=
  if marker.isEmpty then none
  else if marker.isPrefixOf text then
    let after := text.drop marker.length
    let args := Text.trimStart after
    if opensCall args then some ⟨marker ++ Text.blanks after, args⟩ else none
  else none

/-- The leftmost call in the text, with the text before it. `boundary` says whether the text starts
at a boundary, and `passed` holds the characters before it, last one first. -/
def seekCall (marker : Text) (boundary : Bool) (passed : Text) : Text → Option (Text × Call)
  | [] => none
  | c :: t =>
    match if boundary then callAt? marker (c :: t) else none with
    | some call => some (passed.reverse, call)
    | none => seekCall marker (Text.isBlank c) (c :: passed) t

/-- The offsets of a call in a script: of its marker, and of its opening parenthesis. -/
structure CallSite where
  start : Nat
  paren : Nat
  deriving Repr, DecidableEq

/-- Whether a place is a boundary by the text before it. -/
def endsAtBoundary (before : Text) : Bool := before.getLast?.all Text.isBlank

/-- The leftmost call of the marker at or after the place `offset`. With `boundary`, that place is
one whatever stands before it. -/
def CallSite.find? (script : Text) (offset : Nat) (marker : Text) (boundary : Bool) :
    Option CallSite :=
  (Text.splitAt? offset script).bind fun (before, rest) =>
    (seekCall marker (boundary || endsAtBoundary before) [] rest).map fun (gap, call) =>
      let start := offset + Text.byteSize gap
      ⟨start, start + Text.byteSize call.head⟩

/-! ### After the handler block -/

/-- Split off the end of a call from the text after its handler block: a comma, the closing
parenthesis and a semicolon, each after blanks, comma and semicolon only where present. Nothing is
split off where no closing parenthesis follows. -/
def splitCallEnd (t : Text) : Text × Text :=
  let (lead, rest) := match Text.trimStart t with
    | ',' :: rest => (Text.blanks t ++ ',' :: Text.blanks rest, Text.trimStart rest)
    | rest => (Text.blanks t, rest)
  match rest with
  | ')' :: rest =>
    match Text.trimStart rest with
    | ';' :: after => (lead ++ ')' :: (Text.blanks rest ++ [';']), after)
    | _ => (lead ++ [')'], rest)
  | _ => ([], t)

/-- The number of bytes after the handler block at which another argument begins, if there is one. A
comma before the closing parenthesis begins none. -/
def strayArgument? (t : Text) : Option Nat :=
  match Text.trimStart t with
  | ',' :: rest =>
    match Text.trimStart rest with
    | ')' :: _ => none
    | _ => some (Text.byteSize (Text.blanks t) + 1 + Text.byteSize (Text.blanks rest))
  | _ => none

/-- Splitting off the end of a call loses nothing. -/
theorem splitCallEnd_append (t : Text) : (splitCallEnd t).1 ++ (splitCallEnd t).2 = t := by
  have hb := Text.blanks_append_trimStart t
  unfold splitCallEnd
  split
  rename_i lead rest h
  have hlead : lead ++ rest = t := by
    split at h
    · rename_i u hu
      cases h
      rw [List.append_assoc, List.cons_append, Text.blanks_append_trimStart, ← hu, hb]
    · cases h
      exact hb
  split
  · rename_i u
    have hu := Text.blanks_append_trimStart u
    split
    · rename_i v hv
      have hv : Text.blanks u ++ [';'] ++ v = u := by rw [hv] at hu; simpa using hu
      rw [← hlead, List.append_assoc, List.cons_append, hv]
    · simp [← hlead]
  · rfl

end ElementScript
