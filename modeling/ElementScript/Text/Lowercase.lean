import ElementScript.Text
import ElementScript.Text.CaseTable

/-!
# Lower case

Full lower case of Unicode: each character by itself (`Text.lowerChar`), save for a capital sigma,
which becomes a final one at the end of a word: after a cased character and not before one, where
ignorable characters are passed over.
-/

namespace ElementScript

namespace Text

/-- Whether one of the ranges has the character. -/
def inRanges (ranges : List (Nat × Nat)) (c : Char) : Bool :=
  ranges.any fun r => r.1 ≤ c.toNat && c.toNat ≤ r.2

/-- The first character that is not ignored for case is cased. -/
def startsCased (t : Text) : Bool :=
  (t.dropWhile (inRanges caseIgnorableRanges)).head?.any (inRanges casedRanges)

/-- The lower case of a character by itself. -/
def lowerChar (c : Char) : Text :=
  if c = '\u0130' then ['i', '\u0307']
  else match lowerRuns.find? (·.contains c.toNat) with
    | some run => [Char.ofNat (c.toNat + run.distance).toNat]
    | none => [c]

/-- The lower case of a character between others; those before it come last one first. -/
def lowerAt (before : Text) (c : Char) (after : Text) : Text :=
  if c = '\u03a3' then
    if startsCased before && !startsCased after then ['\u03c2'] else ['\u03c3']
  else lowerChar c

/-- Go on after the text `before`, which comes last character first, as does its lower case
`lower`. -/
def lowercaseFrom (before lower : Text) : Text → Text
  | [] => lower.reverse
  | c :: t => lowercaseFrom (c :: before) ((lowerAt before c t).reverse ++ lower) t

/-- The lower case of a text. -/
def lowercase (t : Text) : Text := lowercaseFrom [] [] t

end Text

end ElementScript
