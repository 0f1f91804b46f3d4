import ElementScript.Json.Reader

/-!
# Passing over a JSON value

The value of a field that nobody asks for is only checked for its grammar, by a machine that reads
one character at a time and keeps a stack of the arrays and objects that are open. It is laxer than
reading a value: an escape need not write a character, and a number may be of any size.
-/

namespace ElementScript

namespace JsonReader

/-- What is open around a place. -/
inductive Frame where
  | array
  | object
  deriving Repr, DecidableEq

/-- How far a number has got. -/
inductive NumberPart where
  /-- After the sign. -/
  | sign
  /-- After a leading zero. -/
  | zero
  /-- In the digits before the point. -/
  | whole
  /-- After the point. -/
  | point
  /-- In the digits after the point. -/
  | fraction
  /-- After the letter of the exponent. -/
  | letter
  /-- After the sign of the exponent. -/
  | exponentSign
  /-- In the digits of the exponent. -/
  | exponent
  deriving Repr, DecidableEq

namespace NumberPart

/-- Whether the number may end here. -/
def isEnd : NumberPart → Bool
  | zero | whole | fraction | exponent => true
  | sign | point | letter | exponentSign => false

/-- How the number goes on with a character; none if it does not. -/
def step? (c : Char) : NumberPart → Option NumberPart
  | sign => if c = '0' then some zero else if c.isDigit then some whole else none
  | zero => if c = '.' then some point else if c = 'e' ∨ c = 'E' then some letter else none
  | whole =>
    if c.isDigit then some whole
    else if c = '.' then some point
    else if c = 'e' ∨ c = 'E' then some letter
    else none
  | point => if c.isDigit then some fraction else none
  | fraction =>
    if c.isDigit then some fraction else if c = 'e' ∨ c = 'E' then some letter else none
  | letter =>
    if c.isDigit then some exponent
    else if c = '+' ∨ c = '-' then some exponentSign
    else none
  | exponentSign => if c.isDigit then some exponent else none
  | exponent => if c.isDigit then some exponent else none

end NumberPart

/-- What is being passed over. -/
inductive SkimMode where
  /-- Before a value. -/
  | value
  /-- After an opening bracket. -/
  | first
  /-- Before the key after a comma. -/
  | key
  /-- Before the colon after a key. -/
  | colon
  /-- After a value. -/
  | after
  /-- In a literal, before the given characters. -/
  | word (rest : Text)
  | number (part : NumberPart)
  /-- In a string, which may be a key. The last backslash takes up that many more characters, of
  which the first is its letter if `letter` holds. -/
  | string (isKey letter : Bool) (hex : Nat)
  deriving Repr, DecidableEq

/-- The state of skimming: what is open, from the inside out, and what is being passed over. -/
structure SkimState where
  frames : List Frame
  mode : SkimMode
  deriving Repr, DecidableEq

namespace SkimState

/-- Begin a value. -/
def begin (s : SkimState) (c : Char) : Except JsonProblem SkimState :=
  let go (mode : SkimMode) : Except JsonProblem SkimState := .ok { s with mode }
  match c with
  | 'n' => go (.word ['u', 'l', 'l'])
  | 't' => go (.word ['r', 'u', 'e'])
  | 'f' => go (.word ['a', 'l', 's', 'e'])
  | '-' => go (.number .sign)
  | '0' => go (.number .zero)
  | '\"' => go (.string false false 0)
  | '[' => .ok ⟨.array :: s.frames, .first⟩
  | '{' => .ok ⟨.object :: s.frames, .first⟩
  | c => if c.isDigit then go (.number .whole) else .error .notJson

/-- Pass a character after a value, inside of an array or object. -/
def goOn (s : SkimState) (c : Char) : Except JsonProblem SkimState :=
  match s.frames, c with
  | .array :: _, ',' => .ok { s with mode := .value }
  | .object :: _, ',' => .ok { s with mode := .key }
  | .array :: outer, ']' => .ok ⟨outer, .after⟩
  | .object :: outer, '}' => .ok ⟨outer, .after⟩
  | _, c => if isSpace c then .ok { s with mode := .after } else .error .notJson

/-- Pass a character after an opening bracket. -/
def openUp (s : SkimState) (c : Char) : Except JsonProblem SkimState :=
  match s.frames, c with
  | .array :: outer, ']' => .ok ⟨outer, .after⟩
  | .object :: outer, '}' => .ok ⟨outer, .after⟩
  | .object :: _, '\"' => .ok { s with mode := .string true false 0 }
  | .object :: _, _ => .error .notJson
  | _, c => s.begin c

/-- Pass a character of a string. `t` is the text after it. -/
def inString (s : SkimState) (isKey letter : Bool) (hex : Nat) (c : Char) (t : Text) :
    Except JsonProblem SkimState :=
  let go (letter : Bool) (hex : Nat) : Except JsonProblem SkimState :=
    .ok { s with mode := .string isKey letter hex }
  if letter then
    if c = 'u' then
      if Text.byteSize (t.take 4) < 4 then .error .endOfText else go false 4
    else if c ∈ ['\"', '\\', '/', 'b', 'f', 'n', 'r', 't'] then go false 0
    else .error .notJson
  else match hex with
    | hex + 1 => if (hexValue? c).isSome then go false hex else .error .notJson
    | 0 =>
      if c = '\"' then .ok { s with mode := if isKey then .colon else .after }
      else if c = '\\' then go true 0
      else if c.toNat < 0x20 then .error .notJson
      else go false 0

/-- Whether the value has ended before the character `c`. -/
def isDone (s : SkimState) (c : Char) : Bool :=
  s.frames.isEmpty && match s.mode with
    | .after => true
    | .number part => part.isEnd && (part.step? c).isNone && !(part == .zero && c.isDigit)
    | _ => false

/-- Pass one character, where the value goes on. `t` is the text after it. -/
def step (s : SkimState) (c : Char) (t : Text) : Except JsonProblem SkimState :=
  match s.mode with
  | .value => if isSpace c then .ok s else s.begin c
  | .first => if isSpace c then .ok s else s.openUp c
  | .key =>
    if isSpace c then .ok s
    else if c = '\"' then .ok { s with mode := .string true false 0 }
    else .error .notJson
  | .colon =>
    if isSpace c then .ok s
    else if c = ':' then .ok { s with mode := .value }
    else .error .notJson
  | .after => s.goOn c
  | .word [] => s.goOn c
  | .word [w] => if c = w then .ok { s with mode := .after } else .error .notJson
  | .word (w :: rest) => if c = w then .ok { s with mode := .word rest } else .error .notJson
  | .number part =>
    match part.step? c with
    | some part => .ok { s with mode := .number part }
    | none =>
      if part.isEnd && !(part == .zero && c.isDigit) then s.goOn c else .error .notJson
  | .string isKey letter hex => s.inString isKey letter hex c t

/-- What comes of the end of the text. -/
def finish (s : SkimState) : Except JsonProblem Unit :=
  match s.mode with
  | .after => if s.frames.isEmpty then .ok () else .error .endOfText
  | .number part =>
    if part.isEnd then if s.frames.isEmpty then .ok () else .error .endOfText
    else .error .notJson
  | _ => .error .endOfText

end SkimState

/-- Skim on up to the end of the value. -/
def skimFrom (s : SkimState) : Text → Except JsonProblem Text
  | [] => s.finish.map fun _ => []
  | c :: t =>
    if s.isDone c then .ok (c :: t)
    else match s.step c t with
      | .error problem => .error problem
      | .ok s => skimFrom s t

/-- The text after the value at its start. -/
def skim (t : Text) : Except JsonProblem Text := skimFrom ⟨[], .value⟩ t

end JsonReader

end ElementScript
