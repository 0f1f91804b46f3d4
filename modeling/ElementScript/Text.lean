/-!
# Script text

A script is a list of characters, and a place in it is an offset counted in UTF-8 bytes. A place is
*proper* when it falls between two characters; `Text.splitAt?` succeeds at the proper places only
(`Text.splitAt?_eq_some_iff`). Blanks are the characters with the Unicode property `White_Space`.

Scanning counts bytes; people count lines and columns. `Position.locate` turns an offset into a
position at the nearest proper place at or below it, and `Text.line?` is the line that the
position names.
-/

namespace ElementScript

/-- The characters of a script, or of a part of one. -/
abbrev Text := List Char

namespace Text

/-! ### Bytes and places -/

/-- The number of bytes that the text takes in UTF-8. -/
def byteSize : Text → Nat
  | [] => 0
  | c :: t => c.utf8Size + byteSize t

@[simp] theorem byteSize_nil : byteSize [] = 0 := rfl

@[simp] theorem byteSize_cons (c : Char) (t : Text) :
    byteSize (c :: t) = c.utf8Size + byteSize t := rfl

@[simp] theorem byteSize_append (s t : Text) : byteSize (s ++ t) = byteSize s + byteSize t := by
  induction s with
  | nil => simp
  | cons c s ih => simp [ih, Nat.add_assoc]

@[simp] theorem byteSize_reverse (t : Text) : byteSize t.reverse = byteSize t := by
  induction t with
  | nil => rfl
  | cons c t ih => simp [ih, Nat.add_comm]

/-- The size of a text is that of the string of its characters. -/
theorem byteSize_eq_utf8ByteSize (t : Text) : byteSize t = (String.ofList t).utf8ByteSize := by
  induction t with
  | nil => rfl
  | cons c t ih =>
    have h : String.ofList (c :: t) = String.ofList [c] ++ String.ofList t := by
      rw [← String.ofList_append]
      rfl
    rw [byteSize_cons, ih, h, String.utf8ByteSize_append, ← String.singleton_eq_ofList,
      String.utf8ByteSize_singleton]

/-- Walk `n` bytes into the text, with the characters passed so far in `passed`, last one first. -/
def splitFrom (passed : Text) : Nat → Text → Option (Text × Text)
  | 0, t => some (passed.reverse, t)
  | _ + 1, [] => none
  | n + 1, c :: t =>
    if c.utf8Size ≤ n + 1 then splitFrom (c :: passed) (n + 1 - c.utf8Size) t else none

/-- The text before and after the place `n`, if that is a proper place of the text. -/
def splitAt? (n : Nat) (t : Text) : Option (Text × Text) := splitFrom [] n t

theorem splitFrom_eq_some_iff {passed : Text} {n : Nat} {t : Text} {r : Text × Text} :
    splitFrom passed n t = some r ↔
      ∃ s, t = s ++ r.2 ∧ r.1 = passed.reverse ++ s ∧ byteSize s = n := by
  fun_induction splitFrom passed n t with
  | case1 passed t =>
    constructor
    · intro h
      cases h
      exact ⟨[], by simp⟩
    · intro hspec
      obtain ⟨s, rfl, h, hs⟩ := hspec
      cases s with
      | nil => cases r; simp_all
      | cons c s =>
        have := c.utf8Size_pos
        simp at hs
        omega
  | case2 passed n =>
    constructor
    · intro h
      cases h
    · intro hspec
      obtain ⟨s, h, -, hs⟩ := hspec
      have : s = [] := by simp_all
      subst this
      simp at hs
  | case3 passed n c t h ih =>
    rw [ih]
    constructor
    · intro hspec
      obtain ⟨s, rfl, h', hs⟩ := hspec
      exact ⟨c :: s, by simp, by simp [h'], by simp [hs]; omega⟩
    · intro hspec
      obtain ⟨s, hst, h', hs⟩ := hspec
      cases s with
      | nil => simp at hs
      | cons d s =>
        simp only [List.cons_append, List.cons.injEq] at hst
        obtain ⟨rfl, rfl⟩ := hst
        exact ⟨s, rfl, by simp [h'], by simp at hs; omega⟩
  | case4 passed n c t h =>
    constructor
    · intro h
      cases h
    · intro hspec
      obtain ⟨s, hst, -, hs⟩ := hspec
      cases s with
      | nil => simp at hs
      | cons d s =>
        simp only [List.cons_append, List.cons.injEq] at hst
        obtain ⟨rfl, rfl⟩ := hst
        simp at hs
        omega

/-- A text is split exactly at its proper places, and splitting loses nothing. -/
theorem splitAt?_eq_some_iff {n : Nat} {t : Text} {r : Text × Text} :
    splitAt? n t = some r ↔ t = r.1 ++ r.2 ∧ byteSize r.1 = n := by
  rw [splitAt?, splitFrom_eq_some_iff]
  constructor
  · intro hspec
    obtain ⟨s, h, h', hs⟩ := hspec
    simp_all
  · intro hspec
    obtain ⟨h, hs⟩ := hspec
    exact ⟨r.1, h, by simp, hs⟩

/-- The text between two places, if both are proper and in order. -/
def slice? (start stop : Nat) (t : Text) : Option Text :=
  if start ≤ stop then
    ((splitAt? start t).bind fun parts => splitAt? (stop - start) parts.2).map (·.1)
  else none

/-- Characters passed, last one first, until no whole character fits into `n` more bytes. -/
def takeBytesFrom (passed : Text) : Nat → Text → Text
  | _, [] => passed.reverse
  | n, c :: t =>
    if c.utf8Size ≤ n then takeBytesFrom (c :: passed) (n - c.utf8Size) t else passed.reverse

/-- The longest beginning of the text that takes at most `n` bytes. -/
def takeBytes (n : Nat) (t : Text) : Text := takeBytesFrom [] n t

/-- The first proper place at or after `n`, and the text from there on; `none` past the end. -/
def dropBytes? : Nat → Text → Option (Nat × Text) := go 0
where
  /-- `go m n t` has passed `m` bytes and is to pass at least `n` more. -/
  go (m : Nat) : Nat → Text → Option (Nat × Text)
    | 0, t => some (m, t)
    | _ + 1, [] => none
    | n + 1, c :: t => go (m + c.utf8Size) (n + 1 - c.utf8Size) t

/-! ### Blanks -/

/-- The Unicode property `White_Space`. -/
def isBlank (c : Char) : Bool :=
  let n := c.toNat
  (9 ≤ n && n ≤ 13) || n == 0x20 || n == 0x85 || n == 0xA0 || n == 0x1680 ||
    (0x2000 ≤ n && n ≤ 0x200A) || n == 0x2028 || n == 0x2029 || n == 0x202F || n == 0x205F ||
    n == 0x3000

theorem isBlank_of_isWhitespace {c : Char} (h : c.isWhitespace) : isBlank c := by
  simp only [Char.isWhitespace, Bool.or_eq_true, decide_eq_true_eq] at h
  rcases h with ((rfl | rfl) | rfl) | rfl <;> decide

/-- The blanks at the start of the text. -/
def blanks (t : Text) : Text := t.takeWhile isBlank

/-- The text without the blanks at its start. -/
def trimStart (t : Text) : Text := t.dropWhile isBlank

/-- The text without the blanks at its end. -/
def trimEnd (t : Text) : Text := (t.reverse.dropWhile isBlank).reverse

/-- The text without the blanks at its start and at its end. -/
def trim (t : Text) : Text := trimEnd (trimStart t)

theorem blanks_append_trimStart (t : Text) : blanks t ++ trimStart t = t :=
  List.takeWhile_append_dropWhile

/-! ### Identifiers -/

/-- The quote characters: double, single and back quote. -/
def isQuote (c : Char) : Bool := c == '\"' || c == '\'' || c == '\x60'

/-- A character that an ASCII identifier may begin with. -/
def isIdentifierStart (c : Char) : Bool := c.isAlpha || c == '_' || c == '$'

/-- A character that an ASCII identifier may go on with. -/
def isIdentifierPart (c : Char) : Bool := c.isAlphanum || c == '_' || c == '$'

/-- Identifiers in ASCII: a letter, `_` or `$`, then letters, digits, `_` and `$`. -/
def isIdentifier : Text → Bool
  | [] => false
  | c :: t => isIdentifierStart c && t.all isIdentifierPart

/-! ### Lines -/

/-- Lines in order, each without its terminator: a newline, or a carriage return and a newline.
`line` holds the current line, last character first; text after the last newline is a line if it is
not empty. -/
def linesFrom (line : Text) : Text → List Text
  | [] => if line.isEmpty then [] else [line.reverse]
  | '\n' :: t => (match line with
      | '\r' :: line => line.reverse
      | line => line.reverse) :: linesFrom [] t
  | c :: t => linesFrom (c :: line) t

/-- The lines of the text, without their terminators. -/
def lines (t : Text) : List Text := linesFrom [] t

end Text

/-! ### Positions -/

/-- A proper place of a script: its offset, its line and its column in characters, all from zero. -/
structure Position where
  byte : Nat
  line : Nat
  column : Nat
  deriving Repr, DecidableEq

namespace Position

/-- The position that follows the text `before` at the start of a script. -/
def after (before : Text) : Position where
  byte := Text.byteSize before
  line := before.count '\n'
  column := (before.reverse.takeWhile (· != '\n')).length

/-- The position of the last proper place of `script` that is not past `offset`. -/
def locate (script : Text) (offset : Nat) : Position :=
  after (Text.takeBytes offset script)

end Position

/-- The given line of the script, counted from zero, without its terminator. -/
def Text.line? (script : Text) (line : Nat) : Option Text := (Text.lines script)[line]?

end ElementScript
