import ElementScript.Scan.Block
import ElementScript.Scan.Call

/-!
# The handler block of a call

The handler of a call is the first block that opens directly in its argument list, that is inside
exactly one pair of parentheses that the call opened. Blocks of other arguments are passed over by
the flat scanner, and a call that ends before such a block opens has none.
-/

namespace ElementScript

/-- A call with a handler block: the text up to its brace, the text in its braces, and the text
after them. -/
structure Handler where
  args : Text
  body : Text
  rest : Text
  deriving Repr, DecidableEq

/-- The text of the handler block, with its braces. -/
def Handler.block (h : Handler) : Text := '{' :: (h.body ++ ['}'])

/-- Walk on in an argument list inside `parens` open parentheses. `state` has depth zero outside of
the blocks of other arguments; `passed` holds the characters so far, last one first. -/
def handlerFrom (parens : Nat) (state : BraceState) (passed : Text) :
    Text → Except Fault (Option Handler)
  | [] => .ok none
  | c :: t =>
    if state.inCode && state.depth == 0 then
      if c = '(' then handlerFrom (parens + 1) state (c :: passed) t
      else if c = ')' then
        if parens ≤ 1 then .ok none else handlerFrom (parens - 1) state (c :: passed) t
      else if c = '{' then
        match closeBlock t with
        | .error s => .error ((unclosedBlock s t).shift (Text.byteSize passed))
        | .ok (body, rest) =>
          if parens = 1 then .ok (some ⟨passed.reverse, body, rest⟩)
          else handlerFrom parens (state.step c) (c :: passed) t
      else if c = '}' then handlerFrom parens state (c :: passed) t
      else handlerFrom parens (state.step c) (c :: passed) t
    else handlerFrom parens (state.step c) (c :: passed) t

/-- The handler of the call whose opening parenthesis begins the text. -/
def handler? (args : Text) : Except Fault (Option Handler) := handlerFrom 0 (.atDepth 0) [] args

/-- The handler block of a call in a script. -/
def CallSite.handlerBlock (script : Text) (call : CallSite) : Except Fault (Option Block) :=
  match Text.dropBytes? call.paren script with
  | none => .ok none
  | some (paren, args) =>
    match handler? args with
    | .error f => .error (f.shift paren)
    | .ok none => .ok none
    | .ok (some h) => .ok (some (.ofBody call.start (paren + Text.byteSize h.args) h.body))

end ElementScript
