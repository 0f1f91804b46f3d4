import ElementScript.Rounding
import ElementScript.Text

/-!
# Reading JSON left to right

A document is read in one go, and the first thing that is not as it should be ends the reading.
There are three ways to fail (`JsonProblem`): the text ends too early, the text is no JSON, or a
value is not of the shape that is wanted. A `JsonReader` reads a value from the start of a text and
gives what is left.
-/

namespace ElementScript

/-- Why a JSON text was refused. -/
inductive JsonProblem where
  /-- The text ends too early. -/
  | endOfText
  /-- The text is no JSON. -/
  | notJson
  /-- A value, or a field of a record, is not as wanted. -/
  | wrongShape
  deriving Repr, DecidableEq

/-- What is wrong, in words. -/
def JsonProblem.message : JsonProblem → String
  | endOfText => "unexpected end of JSON text"
  | notJson => "malformed JSON text"
  | wrongShape => "JSON value of the wrong shape"

/-- A reader of a value at the start of a text. -/
abbrev JsonReader (α : Type) := Text → Except JsonProblem (α × Text)

namespace JsonReader

/-- The blanks of JSON. -/
def isSpace (c : Char) : Bool := c == ' ' || c == '\n' || c == '\t' || c == '\r'

/-- The text without the blanks at its start. -/
def skipSpace (t : Text) : Text := t.dropWhile isSpace

/-- The text after the given word. -/
def expect : Text → Text → Except JsonProblem Text
  | [], t => .ok t
  | _ :: _, [] => .error .endOfText
  | w :: word, c :: t => if c = w then expect word t else .error .notJson

/-! ### Strings -/

/-- The value of a hexadecimal digit of either case. -/
def hexValue? (c : Char) : Option Nat :=
  if c.isDigit then some (c.toNat - 48)
  else if 'a' ≤ c ∧ c ≤ 'f' then some (c.toNat - 87)
  else if 'A' ≤ c ∧ c ≤ 'F' then some (c.toNat - 55)
  else none

/-- The number that four hexadecimal digits at the start of the text write. A text of less than four
bytes ends too early, whatever it holds. -/
def hexFour (t : Text) : Except JsonProblem Nat :=
  if Text.byteSize (t.take 4) < 4 then .error .endOfText
  else match (t.take 4).map hexValue? with
    | [some a, some b, some c, some d] => .ok (4096 * a + 256 * b + 16 * c + d)
    | _ => .error .notJson

/-- The character that a `\u` escape writes, with the number of characters from its digits on; two
escapes write a character beyond 16 bits. -/
def unicodeEscape (t : Text) : Except JsonProblem (Char × Nat) := do
  let high ← hexFour t
  if high < 0xD800 ∨ 0xDFFF < high then return (Char.ofNat high, 4)
  else if 0xDC00 ≤ high then throw .notJson
  else match t.drop 4 with
    | [] => throw .endOfText
    | '\\' :: [] => throw .endOfText
    | '\\' :: 'u' :: t =>
      let low ← hexFour t
      if 0xDC00 ≤ low ∧ low ≤ 0xDFFF then
        return (Char.ofNat (0x10000 + 1024 * (high - 0xD800) + (low - 0xDC00)), 10)
      else throw .notJson
    | _ => throw .notJson

/-- The character that an escape writes, with the number of characters after its backslash. -/
def escaped : Text → Except JsonProblem (Char × Nat)
  | [] => .error .endOfText
  | '\"' :: _ => .ok ('\"', 1)
  | '\\' :: _ => .ok ('\\', 1)
  | '/' :: _ => .ok ('/', 1)
  | 'b' :: _ => .ok ('\x08', 1)
  | 'f' :: _ => .ok ('\x0c', 1)
  | 'n' :: _ => .ok ('\n', 1)
  | 'r' :: _ => .ok ('\r', 1)
  | 't' :: _ => .ok ('\t', 1)
  | 'u' :: t => (unicodeEscape t).map fun (c, n) => (c, n + 1)
  | _ => .error .notJson

/-- Read on in a string. The first `skip` characters belong to the last escape; `passed` holds what
has been read, last character first. -/
def stringFrom (skip : Nat) (passed : Text) : JsonReader Text
  | [] => .error .endOfText
  | c :: t =>
    match skip with
    | skip + 1 => stringFrom skip passed t
    | 0 =>
      if c = '\"' then .ok (passed.reverse, t)
      else if c = '\\' then
        match escaped t with
        | .error problem => .error problem
        | .ok (d, length) => stringFrom length (d :: passed) t
      else if c.toNat < 0x20 then .error .notJson
      else stringFrom 0 (c :: passed) t

/-- The string whose opening quote was read just before. -/
def string : JsonReader Text := stringFrom 0 []

/-! ### Numbers -/

/-- A number as it is written. -/
structure Numeral where
  negative : Bool
  /-- The digits before the point. -/
  whole : Text
  /-- The digits after the point, if there is one. -/
  fraction? : Option Text
  /-- Whether the exponent is negative, and its digits, if there is one. -/
  exponent? : Option (Bool × Text)
  deriving Repr, DecidableEq

/-- The digits at the start of the text. There has to be one. -/
def digits (t : Text) : Except JsonProblem (Text × Text) :=
  match t.takeWhile Char.isDigit with
  | [] => .error (if t.isEmpty then .endOfText else .notJson)
  | ds => .ok (ds, t.dropWhile Char.isDigit)

/-- The digits before the point: a zero stands alone. -/
def wholeDigits (t : Text) : Except JsonProblem (Text × Text) := do
  match ← digits t with
  | ('0' :: _ :: _, _) => throw .notJson
  | parts => return parts

/-- The sign and digits of an exponent, after its letter. -/
def exponentDigits : Text → Except JsonProblem ((Bool × Text) × Text)
  | '-' :: t => (digits t).map fun (ds, rest) => ((true, ds), rest)
  | '+' :: t => (digits t).map fun (ds, rest) => ((false, ds), rest)
  | t => (digits t).map fun (ds, rest) => ((false, ds), rest)

/-- The numeral at the start of the text. -/
def numeral (t : Text) : Except JsonProblem (Numeral × Text) := do
  let (negative, t) := match t with
    | '-' :: t => (true, t)
    | t => (false, t)
  let (whole, t) ← wholeDigits t
  let (fraction?, t) ← match t with
    | '.' :: t => (digits t).map fun (ds, rest) => (some ds, rest)
    | t => .ok (none, t)
  let (exponent?, t) ← match t with
    | 'e' :: t | 'E' :: t => (exponentDigits t).map fun (e, rest) => (some e, rest)
    | t => .ok (none, t)
  return (⟨negative, whole, fraction?, exponent?⟩, t)

namespace Numeral

/-- The number that digits write. -/
def natOf (digits : Text) : Nat := digits.foldl (fun n c => 10 * n + (c.toNat - 48)) 0

/-- As many digits appended to `n` as leave it below 2 to the 64th, and the number of those left. -/
def absorb (n : Nat) : Text → Nat × Nat
  | [] => (n, 0)
  | c :: ds =>
    let next := 10 * n + (c.toNat - 48)
    if next < UInt64.size then absorb next ds else (n, ds.length + 1)

/-- A number of 64 bits and a power of ten that are about as large as the numeral. -/
def approximation (x : Numeral) : Nat × Int :=
  let (head, left) := absorb 0 x.whole
  let (head, scale) := match x.fraction? with
    | none => (head, (left : Int))
    | some ds =>
      let (head, dropped) := absorb head ds
      (head, (left : Int) - ((ds.length - dropped : Nat) : Int))
  match x.exponent? with
  | none => (head, scale)
  | some (true, ds) => (head, scale - natOf ds)
  | some (false, ds) => (head, scale + natOf ds)

/-- The least number that is not rounded to a floating point number of 64 bits: half-way between the
largest one and the next power of two. -/
def tooLarge : Nat := Nat.pow 2 1024 - Nat.pow 2 970

/-- Whether the numeral is beyond the range of floating point numbers of 64 bits, when both parts of
its approximation are rounded first. -/
def isTooLarge (x : Numeral) : Bool :=
  let (head, scale) := x.approximation
  head != 0 && decide (0 ≤ scale) &&
    (decide (308 < scale) ||
      decide (tooLarge ≤ roundBinary 53 head * roundBinary 53 (Nat.pow 10 scale.toNat)))

/-- The natural number below 2 to the 64th that the numeral writes without sign, point and
exponent. -/
def toNat? (x : Numeral) : Option Nat :=
  let n := natOf x.whole
  if x.negative || x.fraction?.isSome || x.exponent?.isSome || UInt64.size ≤ n then none else some n

end Numeral

/-- The numeral at the start of the text, unless it is out of range. -/
def number (t : Text) : Except JsonProblem (Numeral × Text) := do
  let (x, rest) ← numeral t
  if x.isTooLarge then throw .notJson else return (x, rest)

/-! ### Values of a given type -/

/-- The problem with a text that does not begin with a value of the type that is wanted. A literal,
a number or a string has its own mistakes first. -/
def mismatch (t : Text) : JsonProblem :=
  let after {α : Type} : Except JsonProblem α → JsonProblem
    | .error problem => problem
    | .ok _ => .wrongShape
  match t with
  | [] => .endOfText
  | 'n' :: t => after (expect ['u', 'l', 'l'] t)
  | 't' :: t => after (expect ['r', 'u', 'e'] t)
  | 'f' :: t => after (expect ['a', 'l', 's', 'e'] t)
  | '\"' :: t => after (string t)
  | '[' :: _ => .wrongShape
  | '{' :: _ => .wrongShape
  | c :: t => if c = '-' ∨ c.isDigit then after (number (c :: t)) else .notJson

/-- A string. -/
def text : JsonReader Text := fun t =>
  match skipSpace t with
  | '\"' :: t => string t
  | t => .error (mismatch t)

/-- A natural number below 2 to the 64th. -/
def natural : JsonReader Nat := fun t =>
  match skipSpace t with
  | [] => .error .endOfText
  | c :: t =>
    if c = '-' ∨ c.isDigit then
      match number (c :: t) with
      | .error problem => .error problem
      | .ok (x, rest) =>
        match x.toNat? with
        | some n => .ok (n, rest)
        | none => .error .wrongShape
    else .error (mismatch (c :: t))

/-- Whether another element of an array follows: the text at which it begins, or none at the closing
bracket, which is not read. -/
def nextElement? (first : Bool) (t : Text) : Except JsonProblem (Option Text) :=
  match skipSpace t with
  | [] => .error .endOfText
  | c :: t =>
    if c = ']' then .ok none
    else if first then .ok (some (c :: t))
    else if c = ',' then
      match skipSpace t with
      | [] => .error .endOfText
      | ']' :: _ => .error .notJson
      | t => .ok (some t)
    else .error .notJson

/-- The text after the bracket that has to close an array here. -/
def closeArray (t : Text) : Except JsonProblem Text :=
  match skipSpace t with
  | [] => .error .endOfText
  | ']' :: t => .ok t
  | _ => .error .notJson

/-- Read on in an array of at most `fuel` more elements. -/
def elementsFrom {α : Type} (element : JsonReader α) (first : Bool) (passed : List α) :
    (fuel : Nat) → JsonReader (List α)
  | 0, _ => .error .endOfText
  | fuel + 1, t => do
    match ← nextElement? first t with
    | none => return (passed.reverse, ← closeArray t)
    | some t =>
      let (a, t) ← element t
      elementsFrom element false (a :: passed) fuel t

/-- An array. -/
def list {α : Type} (element : JsonReader α) : JsonReader (List α) := fun t =>
  match skipSpace t with
  | '[' :: t => elementsFrom element true [] (t.length + 1) t
  | t => .error (mismatch t)

/-- A whole document: a value with nothing but blanks around it. -/
def document {α : Type} (reader : JsonReader α) (t : Text) : Except JsonProblem α := do
  let (a, rest) ← reader t
  if (skipSpace rest).isEmpty then return a else throw .notJson

end JsonReader

end ElementScript
