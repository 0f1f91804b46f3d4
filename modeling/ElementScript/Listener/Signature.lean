import ElementScript.Text

/-!
# The arguments of a listener call

Between its parenthesis and its handler block, a listener call names the attribute in quotes and
then the parameters of the handler. Neither is parsed as code: the attribute is the first quoted
attribute name that stands anywhere in the text, the parameters are the first list in parentheses
after it, or else the name before the first arrow.
-/

namespace ElementScript

namespace Listener

/-! ### The attribute -/

/-- A character of an attribute name. -/
def isAttributePart (c : Char) : Bool := c.isAlphanum || c == '_' || c == '-'

/-- The attribute name in the quotes that open at the start of the text, and the text after them.
Blanks around the name do not count. -/
def attributeAt? : Text → Option (Text × Text)
  | [] => none
  | q :: t =>
    if Text.isQuote q then
      let inner := Text.trimStart t
      let name := inner.takeWhile isAttributePart
      match Text.trimStart (inner.dropWhile isAttributePart) with
      | c :: rest => if !name.isEmpty && c == q then some (name, rest) else none
      | [] => none
    else none

/-- The first quoted attribute name in the text, and the text after its quotes. -/
def attribute? : Text → Option (Text × Text)
  | [] => none
  | c :: t =>
    match attributeAt? (c :: t) with
    | some found => some found
    | none => attribute? t

/-! ### The parameters -/

/-- The contents of the first pair of parentheses with no parenthesis between them. `inside` holds
what follows the last opening one, last character first. -/
def parenthesizedFrom (inside : Option Text) : Text → Option Text
  | [] => none
  | c :: t =>
    if c = '(' then parenthesizedFrom (some []) t
    else if c = ')' then
      match inside with
      | some inside => some inside.reverse
      | none => parenthesizedFrom none t
    else parenthesizedFrom (inside.map (c :: ·)) t

/-- The contents of the first innermost pair of parentheses in the text. -/
def parenthesized? (t : Text) : Option Text := parenthesizedFrom none t

/-- The identifier before an arrow at the start of the text. -/
def arrowParameterAt? : Text → Option Text
  | [] => none
  | c :: t =>
    if Text.isIdentifierStart c then
      match Text.trimStart (t.dropWhile Text.isIdentifierPart) with
      | '=' :: '>' :: _ => some (c :: t.takeWhile Text.isIdentifierPart)
      | _ => none
    else none

/-- The identifier before the first arrow that has one. -/
def arrowParameter? : Text → Option Text
  | [] => none
  | c :: t =>
    match arrowParameterAt? (c :: t) with
    | some name => some name
    | none => arrowParameter? t

/-- The parts of a text between its commas, without blanks around them; empty ones do not count. -/
def commaParts (t : Text) : List Text :=
  ((t.splitOnP (· == ',')).map Text.trim).filter (!·.isEmpty)

/-- The names of the parameters in the text after the attribute; none if a list in parentheses holds
anything but identifiers. -/
def parameters? (t : Text) : Option (List Text) :=
  match parenthesized? t with
  | some inside =>
    let names := commaParts inside
    if names.all Text.isIdentifier then some names else none
  | none => some (arrowParameter? t).toList

end Listener

end ElementScript
