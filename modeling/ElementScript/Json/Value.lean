import ElementScript.Text

/-!
# JSON values and their printed form

The values that the program writes as JSON: no numbers and no booleans are among them. They are
printed over several lines, two spaces to a level, with members in the given order.
-/

namespace ElementScript

/-- A JSON value as the program writes it. -/
inductive JsonValue where
  | null
  | text (s : Text)
  | array (items : List JsonValue)
  | object (members : List (Text × JsonValue))

namespace JsonValue

/-- Null for nothing. -/
def ofOption {α : Type} (f : α → JsonValue) : Option α → JsonValue
  | some a => f a
  | none => null

/-- The lower case hexadecimal digit of a number below sixteen. -/
def hexDigit (n : Nat) : Char := Char.ofNat (if n < 10 then 48 + n else 87 + n)

/-- A character as it is written in a string: quotes, backslashes and control characters are
escaped. -/
def escape (c : Char) : Text :=
  match c with
  | '\"' => ['\\', '\"']
  | '\\' => ['\\', '\\']
  | '\x08' => ['\\', 'b']
  | '\x0c' => ['\\', 'f']
  | '\n' => ['\\', 'n']
  | '\r' => ['\\', 'r']
  | '\t' => ['\\', 't']
  | c =>
    if c.toNat < 0x20 then
      ['\\', 'u', '0', '0', hexDigit (c.toNat / 16), hexDigit (c.toNat % 16)]
    else [c]

/-- A text as a JSON string. -/
def quoted (t : Text) : Text := '\"' :: (t.flatMap escape ++ ['\"'])

/-- The start of a line at the given level. -/
def newline (level : Nat) : Text := '\n' :: List.replicate (2 * level) ' '

/-- Parts between brackets, each on a line of its own one level further in. -/
def bracketed (opening closing : Char) (level : Nat) (parts : List Text) : Text :=
  if parts.isEmpty then [opening, closing]
  else
    let lines := parts.map (newline (level + 1) ++ ·)
    opening :: ([','].intercalate lines ++ newline level ++ [closing])

mutual

/-- The printed form of a value whose first line is at the given level. -/
def pretty (level : Nat) : JsonValue → Text
  | null => ['n', 'u', 'l', 'l']
  | text s => quoted s
  | array items => bracketed '[' ']' level (prettyItems (level + 1) items)
  | object members => bracketed '\x7b' '\x7d' level (prettyMembers (level + 1) members)

/-- The printed forms of the items of an array. -/
def prettyItems (level : Nat) : List JsonValue → List Text
  | [] => []
  | v :: vs => v.pretty level :: prettyItems level vs

/-- The printed forms of the members of an object. -/
def prettyMembers (level : Nat) : List (Text × JsonValue) → List Text
  | [] => []
  | (key, v) :: members =>
    (quoted key ++ [':', ' '] ++ v.pretty level) :: prettyMembers level members

end

/-- The printed form of a value. -/
def print (v : JsonValue) : Text := v.pretty 0

end JsonValue

end ElementScript
