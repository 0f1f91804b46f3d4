import Mathlib.Data.List.Forall2
import ElementScript.Text

/-!
# The grammar of JSON

What a text has to look like to write a JSON value, without a word about how it is read. A value is
known by what it says: the strings in it are texts, however they are escaped, and only numbers are
kept as they are written. Blanks in front of a value belong to its text.
-/

namespace ElementScript

/-- A JSON value. -/
inductive Json where
  | null
  | bool (b : Bool)
  /-- A number, as it is written. -/
  | number (literal : Text)
  | text (t : Text)
  | array (items : List Json)
  | object (members : List (Text × Json))

namespace Json

/-- A natural number, in decimal digits. -/
def natural (n : Nat) : Json := number (Nat.toDigits 10 n)

/-- Blanks, or nothing. -/
def IsBlank (t : Text) : Prop := ∀ c ∈ t, c ∈ [' ', '\n', '\t', '\r']

instance (t : Text) : Decidable (IsBlank t) := List.decidableBAll _ t

/-! ### Strings -/

/-- A hexadecimal digit, of either case. -/
def IsHexDigit (n : Nat) (c : Char) : Prop :=
  n < 16 ∧ (c = Nat.digitChar n ∨ c = (Nat.digitChar n).toUpper)

instance (n : Nat) (c : Char) : Decidable (IsHexDigit n c) := inferInstanceAs (Decidable (_ ∧ _))

/-- Four hexadecimal digits that write a number of 16 bits. -/
def IsHexFour (n : Nat) (t : Text) : Prop :=
  List.Forall₂ IsHexDigit [n / 4096, n / 256 % 16, n / 16 % 16, n % 16] t

/-- The escapes of one letter, with the characters that they write. -/
def shortEscapes : List (Char × Char) :=
  [('\"', '\"'), ('\\', '\\'), ('/', '/'), ('b', '\x08'), ('f', '\x0c'), ('n', '\n'), ('r', '\r'),
    ('t', '\t')]

/-- How a character of a string is written. -/
inductive CharText : Char → Text → Prop
  | plain {c : Char} : c ≠ '\"' → c ≠ '\\' → 0x20 ≤ c.toNat → CharText c [c]
  | short {letter c : Char} : (letter, c) ∈ shortEscapes → CharText c ['\\', letter]
  | unicode {c : Char} {digits : Text} : IsHexFour c.toNat digits →
      CharText c ('\\' :: 'u' :: digits)
  /-- A character beyond 16 bits takes two escapes, of ten bits each. -/
  | pair {c : Char} {high low : Text} : 0x10000 ≤ c.toNat →
      IsHexFour (0xD800 + (c.toNat - 0x10000) / 1024) high →
      IsHexFour (0xDC00 + (c.toNat - 0x10000) % 1024) low →
      CharText c ('\\' :: 'u' :: (high ++ '\\' :: 'u' :: low))

/-- How the characters of a string are written, between its quotes. -/
inductive StringText : Text → Text → Prop
  | nil : StringText [] []
  | cons {c : Char} {s u t : Text} : CharText c u → StringText s t → StringText (c :: s) (u ++ t)

/-- A text without quotes, backslashes and control characters can be written as it is. -/
theorem stringText_plain {t : Text}
    (h : (t.all fun c => c != '\"' && c != '\\' && decide (0x20 ≤ c.toNat)) = true) :
    StringText t t := by
  induction t with
  | nil => exact .nil
  | cons c t ih =>
      rw [List.all_cons, Bool.and_eq_true, Bool.and_eq_true, Bool.and_eq_true, bne_iff_ne,
        bne_iff_ne, decide_eq_true_iff] at h
      obtain ⟨⟨⟨hquote, hslash⟩, hcontrol⟩, h⟩ := h
      exact .cons (.plain hquote hslash hcontrol) (ih h)

/-! ### Numbers -/

/-- One digit or more. -/
def IsDigits (t : Text) : Prop := t ≠ [] ∧ ∀ c ∈ t, c.isDigit

/-- The digits before the point: a zero stands alone. -/
def IsWhole (t : Text) : Prop := IsDigits t ∧ (t.head? = some '0' → t = ['0'])

/-- The point and the digits after it, or nothing. -/
inductive IsFraction : Text → Prop
  | nil : IsFraction []
  | digits {ds : Text} : IsDigits ds → IsFraction ('.' :: ds)

/-- The exponent, or nothing. -/
inductive IsExponent : Text → Prop
  | nil : IsExponent []
  | digits {letter : Char} {sign ds : Text} : letter ∈ ['e', 'E'] → sign ∈ [[], ['+'], ['-']] →
      IsDigits ds → IsExponent (letter :: (sign ++ ds))

/-- A number. -/
inductive IsNumber : Text → Prop
  | mk {sign whole fraction exponent : Text} : sign ∈ [[], ['-']] → IsWhole whole →
      IsFraction fraction → IsExponent exponent →
      IsNumber (sign ++ (whole ++ (fraction ++ exponent)))

/-! ### Values -/

mutual

/-- How a value is written. -/
inductive Writes : Json → Text → Prop
  | null {b : Text} : IsBlank b → Writes null (b ++ ['n', 'u', 'l', 'l'])
  | true {b : Text} : IsBlank b → Writes (bool .true) (b ++ ['t', 'r', 'u', 'e'])
  | false {b : Text} : IsBlank b → Writes (bool .false) (b ++ ['f', 'a', 'l', 's', 'e'])
  | number {b t : Text} : IsBlank b → IsNumber t → Writes (number t) (b ++ t)
  | text {b s t : Text} : IsBlank b → StringText s t → Writes (text s) (b ++ '\"' :: (t ++ ['\"']))
  | array {b t : Text} {items : List Json} : IsBlank b → WritesItems items t →
      Writes (array items) (b ++ '[' :: (t ++ [']']))
  | object {b t : Text} {members : List (Text × Json)} : IsBlank b → WritesMembers members t →
      Writes (object members) (b ++ '\x7b' :: (t ++ ['\x7d']))

/-- How items are written, between their brackets. -/
inductive WritesItems : List Json → Text → Prop
  | nil {b : Text} : IsBlank b → WritesItems [] b
  | last {v : Json} {t b : Text} : Writes v t → IsBlank b → WritesItems [v] (t ++ b)
  | cons {v w : Json} {items : List Json} {t b u : Text} : Writes v t → IsBlank b →
      WritesItems (w :: items) u → WritesItems (v :: w :: items) (t ++ (b ++ ',' :: u))

/-- How a member is written. -/
inductive WritesMember : Text × Json → Text → Prop
  | mk {key : Text} {v : Json} {b k b' t : Text} : IsBlank b → StringText key k → IsBlank b' →
      Writes v t → WritesMember (key, v) (b ++ '\"' :: (k ++ '\"' :: (b' ++ ':' :: t)))

/-- How members are written, between their braces. -/
inductive WritesMembers : List (Text × Json) → Text → Prop
  | nil {b : Text} : IsBlank b → WritesMembers [] b
  | last {m : Text × Json} {t b : Text} : WritesMember m t → IsBlank b → WritesMembers [m] (t ++ b)
  | cons {m n : Text × Json} {members : List (Text × Json)} {t b u : Text} : WritesMember m t →
      IsBlank b → WritesMembers (n :: members) u →
      WritesMembers (m :: n :: members) (t ++ (b ++ ',' :: u))

end

/-- A document that writes a value: blanks may come after it. -/
def IsDocument (v : Json) (t : Text) : Prop := ∃ u b, v.Writes u ∧ IsBlank b ∧ t = u ++ b

/-! ### Objects with fields -/

/-- The keys of members that are the names of fields. -/
def fieldKeys (names : List Text) (members : List (Text × Json)) : List Text :=
  (members.map Prod.fst).filter names.contains

/-- Whether a value is an object with the fields that are given, each one once and with a value as
it is described. The fields come in any order, and any other members may stand between them. -/
def HasFields (fields : List (Text × (Json → Prop))) (given : Text → Bool) (v : Json) : Prop :=
  ∃ members, v = object members ∧ (fieldKeys (fields.map Prod.fst) members).Nodup ∧
    ∀ field ∈ fields, (field.1 ∈ members.map Prod.fst ↔ given field.1 = true) ∧
      ∀ v, (field.1, v) ∈ members → field.2 v

theorem fieldKeys_cons_of_mem {names : List Text} {m : Text × Json} (h : m.1 ∈ names)
    (members : List (Text × Json)) :
    fieldKeys names (m :: members) = m.1 :: fieldKeys names members := by
  rw [fieldKeys, List.map_cons]
  exact List.filter_cons_of_pos (by simpa using h)

theorem fieldKeys_cons_of_notMem {names : List Text} {m : Text × Json} (h : m.1 ∉ names)
    (members : List (Text × Json)) : fieldKeys names (m :: members) = fieldKeys names members := by
  rw [fieldKeys, List.map_cons]
  exact List.filter_cons_of_neg (by simpa using h)

theorem mem_fieldKeys {names : List Text} {members : List (Text × Json)} {key : Text} :
    key ∈ fieldKeys names members ↔ key ∈ members.map Prod.fst ∧ key ∈ names := by
  rw [fieldKeys, List.mem_filter, List.contains_iff_mem]

/-! ### Places in a document -/

/-- The characters that can come after a value. -/
def followers : Text := [' ', '\n', '\t', '\r', ',', ']', '\x7d']

/-- Whether a text can come after a value. -/
def Follows (t : Text) : Prop := ∀ c, t.head? = some c → c ∈ followers

/-- No number goes on with a character that can come after a value. -/
theorem of_mem_followers {c : Char} (h : c ∈ followers) :
    c.isDigit = false ∧ c ≠ '.' ∧ c ≠ 'e' ∧ c ≠ 'E' := by
  have hall : (followers.all fun c => !c.isDigit && c != '.' && c != 'e' && c != 'E') = true := by
    decide
  simpa [and_assoc] using List.all_eq_true.mp hall c h

theorem follows_nil : Follows [] := nofun

theorem follows_comma {t : Text} : Follows (',' :: t) := by
  intro c hc
  obtain rfl := Option.some.inj hc
  decide

theorem follows_bracket {t : Text} : Follows (']' :: t) := by
  intro c hc
  obtain rfl := Option.some.inj hc
  decide

theorem follows_brace {t : Text} : Follows ('\x7d' :: t) := by
  intro c hc
  obtain rfl := Option.some.inj hc
  decide

theorem Follows.blank_append {b t : Text} (h : Follows t) (hb : IsBlank b) : Follows (b ++ t) := by
  cases b with
  | nil => exact h
  | cons c b =>
      intro d hd
      obtain rfl := Option.some.inj hd
      have hmem : c ∈ [' ', '\n', '\t', '\r'] := hb c List.mem_cons_self
      exact List.mem_append_left [',', ']', '\x7d'] hmem

end Json

end ElementScript
