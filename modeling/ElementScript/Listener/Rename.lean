import ElementScript.Text

/-!
# Renaming variables

The body of a handler is cut into tokens: the words that are references to variables, and all other
text. Renaming replaces references and leaves the rest, so it works on tokens alone
(`renameReferences`), and the cut does not depend on the names to be replaced. There are none in
literals, save in the code that templates substitute. A word after a dot is a property, a word
before a colon and after a brace or comma is a key; neither is a reference.
-/

namespace ElementScript

/-- A part of a handler's body. -/
inductive CodeToken where
  /-- Text that is no reference. -/
  | fixed (text : Text)
  /-- A reference to a variable. -/
  | reference (name : Text)
  deriving Repr, DecidableEq

/-- What a place of a handler's body is enclosed by. -/
inductive CodeContext where
  /-- Code, inside that many braces of its own. -/
  | code (depth : Nat)
  /-- The text of a literal that this quote closes; a back quote closes a template. -/
  | literal (quote : Char)
  deriving Repr, DecidableEq

/-- The contexts around a place: the inner one, and those around it from the inside out. -/
structure CodePlace where
  inner : CodeContext
  outer : List CodeContext
  deriving Repr, DecidableEq

namespace CodePlace

/-- In code, with nothing around it. -/
def top : CodePlace := ⟨.code 0, []⟩

/-- Inside one more context. -/
def enter (p : CodePlace) (context : CodeContext) : CodePlace := ⟨context, p.inner :: p.outer⟩

/-- Outside of the inner context; the outermost one is never left. -/
def leave (p : CodePlace) : CodePlace :=
  match p.outer with
  | [] => p
  | context :: outer => ⟨context, outer⟩

end CodePlace

namespace CodeToken

/-- The text of the token. -/
def text : CodeToken → Text
  | fixed text => text
  | reference name => name

/-! ### Cutting a body into tokens -/

/-- A character of a word. Beyond ASCII every character is one. -/
def isWordPart (c : Char) : Bool := Text.isIdentifierPart c || 0x80 ≤ c.toNat

/-- Whether a word is a property, by the text before it, last character first: a dot stands there,
and no spread. -/
def followsDot : Text → Bool
  | '.' :: '.' :: '.' :: _ => false
  | '.' :: _ => true
  | _ => false

/-- Whether a word is a key, by the text before it, last character first, and the text after it. -/
def isKey (before after : Text) : Bool :=
  (match Text.trimStart after with
    | ':' :: _ => true
    | _ => false) &&
  match Text.trimStart before with
    | '{' :: _ => true
    | ',' :: _ => true
    | _ => false

/-- The token that begins with the character `c` of a literal that `quote` closes, and the place
after it. A backslash takes its successor along; a substitution of a template is code again. -/
def nextInLiteral (p : CodePlace) (quote c : Char) (t : Text) : CodeToken × CodePlace :=
  if c = '\\' then (fixed (c :: t.take 1), p)
  else if c = quote then (fixed [c], p.leave)
  else if quote = '\x60' ∧ c = '$' ∧ t.head? = some '{' then
    (fixed ['$', '{'], p.enter (.code 0))
  else (fixed [c], p)

/-- The token that begins with the character `c` of code inside `depth` braces, and the place after
it. `before` is the text before it, last character first. -/
def nextInCode (p : CodePlace) (depth : Nat) (before : Text) (c : Char) (t : Text) :
    CodeToken × CodePlace :=
  if Text.isQuote c then (fixed [c], p.enter (.literal c))
  else if c = '{' then (fixed [c], { p with inner := .code (depth + 1) })
  else if c = '}' then
    (fixed [c], if depth = 0 ∧ p.outer ≠ [] then p.leave else { p with inner := .code (depth - 1) })
  else if c.isDigit then
    (fixed (c :: t.takeWhile fun d => isWordPart d || d == '.'), p)
  else if isWordPart c then
    let word := c :: t.takeWhile isWordPart
    if followsDot before || isKey before (t.dropWhile isWordPart) then (fixed word, p)
    else (reference word, p)
  else (fixed [c], p)

/-- The token that begins with the character `c`, and the place after it. -/
def next (p : CodePlace) (before : Text) (c : Char) (t : Text) : CodeToken × CodePlace :=
  match p.inner with
  | .literal quote => nextInLiteral p quote c t
  | .code depth => nextInCode p depth before c t

/-- Cut on at the place `p`. The first `skip` characters belong to the last token; `before` is the
text so far, last character first, and `tokens` are those so far, last one first. -/
def cutFrom (p : CodePlace) (skip : Nat) (before : Text) (tokens : List CodeToken) :
    Text → List CodeToken
  | [] => tokens.reverse
  | c :: t =>
    match skip with
    | skip + 1 => cutFrom p skip (c :: before) tokens t
    | 0 =>
      let (token, p) := next p before c t
      cutFrom p (token.text.length - 1) (c :: before) (token :: tokens) t

/-- The tokens of a body. -/
def cut (body : Text) : List CodeToken := cutFrom .top 0 [] [] body

/-! ### Replacing references -/

/-- What a name becomes by the first pair that begins with it. -/
def substitute (renames : List (Text × Text)) (name : Text) : Text :=
  (renames.lookup name).getD name

/-- The text of the token once references are replaced. -/
def rename (renames : List (Text × Text)) : CodeToken → Text
  | fixed text => text
  | reference name => substitute renames name

end CodeToken

/-- Replace the references in a body by a list of pairs, all at once. -/
def renameReferences (renames : List (Text × Text)) (body : Text) : Text :=
  (CodeToken.cut body).flatMap (CodeToken.rename renames)

end ElementScript
