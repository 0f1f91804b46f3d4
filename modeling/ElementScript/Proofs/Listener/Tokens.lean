import ElementScript.Proofs.Listener.Rename

/-!
# Tokens and the places at which they stand

The lexer behind renaming cuts one token after the other off the front of a text, and a stack of
contexts tells what the next one can be. `IsNext` has one rule for each kind of token, and
`next_eq_iff` says that the lexer obeys these rules and no other. `lexFrom` keeps the place of each
token, and so it tells what is code and what is literal text. `Lexed` is the same without what has
been read so far: everything about a whole text is proved by induction on it.
-/

namespace ElementScript

namespace CodeToken

/-! ### One token -/

/-- A character that a number may go on with. -/
def isNumberPart (c : Char) : Bool := isWordPart c || c == '.'

/-- The token of a word, by the text before it, last character first, and the text after it. -/
def ofWord (before word after : Text) : CodeToken :=
  if followsDot before || isKey before after then fixed word else reference word

theorem text_ofWord (before word after : Text) : (ofWord before word after).text = word := by
  unfold ofWord
  split <;> rfl

/-- The token that is cut off at a place, behind the text `before`, if the text of the token comes
next and then `rest`; and the place behind it. -/
inductive IsNext (before : Text) :
    CodePlace → Text → Text → CodeToken → CodePlace → Prop where
  /-- A backslash takes along what follows it. -/
  | escape {quote : Char} {outer : List CodeContext} {w rest : Text} (hw : (w ++ rest).take 1 = w) :
      IsNext before ⟨.literal quote, outer⟩ ('\\' :: w) rest (fixed ('\\' :: w))
        ⟨.literal quote, outer⟩
  | closeQuote {quote : Char} {outer : List CodeContext} {rest : Text} (hquote : quote ≠ '\\') :
      IsNext before ⟨.literal quote, outer⟩ [quote] rest (fixed [quote])
        (CodePlace.leave ⟨.literal quote, outer⟩)
  | openSubstitution {outer : List CodeContext} {rest : Text} :
      IsNext before ⟨.literal '\x60', outer⟩ ['$', '{'] rest (fixed ['$', '{'])
        ⟨.code 0, .literal '\x60' :: outer⟩
  | literal {quote c : Char} {outer : List CodeContext} {rest : Text} (hslash : c ≠ '\\')
      (hquote : c ≠ quote) (hopen : ¬ (quote = '\x60' ∧ c = '$' ∧ rest.head? = some '{')) :
      IsNext before ⟨.literal quote, outer⟩ [c] rest (fixed [c]) ⟨.literal quote, outer⟩
  | openQuote {quote : Char} {depth : Nat} {outer : List CodeContext} {rest : Text}
      (hquote : Text.isQuote quote) :
      IsNext before ⟨.code depth, outer⟩ [quote] rest (fixed [quote])
        ⟨.literal quote, .code depth :: outer⟩
  | openBrace {depth : Nat} {outer : List CodeContext} {rest : Text} :
      IsNext before ⟨.code depth, outer⟩ ['{'] rest (fixed ['{']) ⟨.code (depth + 1), outer⟩
  /-- A brace that closes a block, or one too many outside of any substitution. -/
  | closeBrace {depth : Nat} {outer : List CodeContext} {rest : Text}
      (hdepth : depth ≠ 0 ∨ outer = []) :
      IsNext before ⟨.code depth, outer⟩ ['}'] rest (fixed ['}']) ⟨.code (depth - 1), outer⟩
  | closeSubstitution {context : CodeContext} {outer : List CodeContext} {rest : Text} :
      IsNext before ⟨.code 0, context :: outer⟩ ['}'] rest (fixed ['}']) ⟨context, outer⟩
  | number {depth : Nat} {outer : List CodeContext} {c : Char} {w rest : Text} (hc : c.isDigit)
      (hw : ∀ d ∈ w, isNumberPart d) (hrest : ¬ rest.head?.any isNumberPart) :
      IsNext before ⟨.code depth, outer⟩ (c :: w) rest (fixed (c :: w)) ⟨.code depth, outer⟩
  | word {depth : Nat} {outer : List CodeContext} {c : Char} {w rest : Text} (hc : ¬ c.isDigit)
      (hword : ∀ d ∈ c :: w, isWordPart d) (hrest : ¬ rest.head?.any isWordPart) :
      IsNext before ⟨.code depth, outer⟩ (c :: w) rest (ofWord before (c :: w) rest)
        ⟨.code depth, outer⟩
  /-- Any other character of code. -/
  | mark {depth : Nat} {outer : List CodeContext} {c : Char} {rest : Text}
      (hquote : ¬ Text.isQuote c) (hopen : c ≠ '{') (hclose : c ≠ '}') (hdigit : ¬ c.isDigit)
      (hword : ¬ isWordPart c) :
      IsNext before ⟨.code depth, outer⟩ [c] rest (fixed [c]) ⟨.code depth, outer⟩

/-- The text that comes next is that of the token. -/
theorem IsNext.text_eq {before u rest : Text} {p q : CodePlace} {token : CodeToken}
    (h : IsNext before p u rest token q) : token.text = u := by
  cases h with
  | word => exact text_ofWord ..
  | _ => rfl

/-- No token is empty. -/
theorem IsNext.ne_nil {before u rest : Text} {p q : CodePlace} {token : CodeToken}
    (h : IsNext before p u rest token q) : u ≠ [] := by
  cases h <;> simp

/-- A run of characters of a class, up to the first one that is not of it. -/
theorem takeWhile_append_eq_left {p : Char → Bool} {w rest : Text} :
    (w ++ rest).takeWhile p = w ↔ (∀ d ∈ w, p d) ∧ ¬ rest.head?.any p := by
  constructor
  · intro h
    have hw : ∀ d ∈ w, p d := by
      intro d hd
      rw [← h] at hd
      exact List.all_eq_true.mp List.all_takeWhile d hd
    refine ⟨hw, ?_⟩
    rw [List.takeWhile_append_of_pos hw] at h
    cases rest with
    | nil => simp
    | cons d rest =>
        intro hd
        have hp : p d = true := hd
        rw [List.takeWhile_cons_of_pos hp] at h
        simp at h
  · intro hspec
    obtain ⟨hw, hrest⟩ := hspec
    rw [List.takeWhile_append_of_pos hw]
    cases rest with
    | nil => simp
    | cons d rest =>
        have hp : ¬ p d = true := hrest
        rw [List.takeWhile_cons_of_neg hp, List.append_nil]

theorem dropWhile_of_takeWhile {p : Char → Bool} {w rest : Text}
    (h : (w ++ rest).takeWhile p = w) : (w ++ rest).dropWhile p = rest := by
  have happend := List.takeWhile_append_dropWhile (p := p) (l := w ++ rest)
  rw [h] at happend
  exact List.append_cancel_left happend

theorem isWordPart_of_isDigit {c : Char} (h : c.isDigit) : isWordPart c := by
  simp [isWordPart, Text.isIdentifierPart, Char.isAlphanum, h]

theorem isNumberPart_of_isWordPart {c : Char} (h : isWordPart c) : isNumberPart c := by
  rw [isNumberPart, h, Bool.true_or]

/-- No character of a number means anything to the flat scanner. -/
theorem isPlain_of_isNumberPart {c : Char} (h : isNumberPart c) : BraceState.isPlain c :=
  BraceState.isPlain_of_class (p := isNumberPart) (by decide) h

/-- No character of a word is a brace, a backslash or a quote. -/
theorem isMarkFree_of_isWordPart {c : Char} (h : isWordPart c) :
    c ≠ '{' ∧ c ≠ '}' ∧ c ≠ '\\' ∧ ¬ Text.isQuote c := by
  have hplain := isPlain_of_isWordPart h
  simpa [BraceState.isPlain, and_assoc] using hplain

section

variable {before w rest : Text} {c : Char} {token : CodeToken} {q : CodePlace}

/-- What is cut off in a literal. -/
theorem isNext_of_nextInLiteral {quote : Char} {outer : List CodeContext}
    (h : nextInLiteral ⟨.literal quote, outer⟩ quote c (w ++ rest) = (token, q))
    (htext : token.text = c :: w) :
    IsNext before ⟨.literal quote, outer⟩ (c :: w) rest token q := by
  unfold nextInLiteral at h
  by_cases hslash : c = '\\'
  · rw [if_pos hslash] at h
    cases h
    subst hslash
    have hw : (w ++ rest).take 1 = w := (List.cons.inj htext).2
    rw [hw]
    exact .escape hw
  · rw [if_neg hslash] at h
    by_cases hquote : c = quote
    · rw [if_pos hquote] at h
      cases h
      cases htext
      subst hquote
      exact .closeQuote hslash
    · rw [if_neg hquote] at h
      by_cases hopen : quote = '\x60' ∧ c = '$' ∧ (w ++ rest).head? = some '{'
      · rw [if_pos hopen] at h
        obtain ⟨rfl, rfl, -⟩ := hopen
        cases h
        cases htext
        exact .openSubstitution
      · rw [if_neg hopen] at h
        cases h
        cases htext
        exact .literal hslash hquote hopen

/-- What is cut off in code. -/
theorem isNext_of_nextInCode {depth : Nat} {outer : List CodeContext}
    (h : nextInCode ⟨.code depth, outer⟩ depth before c (w ++ rest) = (token, q))
    (htext : token.text = c :: w) : IsNext before ⟨.code depth, outer⟩ (c :: w) rest token q := by
  unfold nextInCode at h
  by_cases hquote : Text.isQuote c
  · rw [if_pos hquote] at h
    cases h
    cases htext
    exact .openQuote hquote
  rw [if_neg hquote] at h
  by_cases hopen : c = '{'
  · rw [if_pos hopen] at h
    cases h
    cases htext
    subst hopen
    exact .openBrace
  rw [if_neg hopen] at h
  by_cases hclose : c = '}'
  · rw [if_pos hclose] at h
    subst hclose
    by_cases hleave : depth = 0 ∧ outer ≠ []
    · rw [if_pos hleave] at h
      obtain ⟨rfl, houter⟩ := hleave
      obtain ⟨context, outer, rfl⟩ := List.exists_cons_of_ne_nil houter
      cases h
      cases htext
      exact .closeSubstitution
    · rw [if_neg hleave] at h
      cases h
      cases htext
      refine .closeBrace ?_
      by_cases hdepth : depth = 0
      · exact Or.inr (Classical.not_not.mp fun houter => hleave ⟨hdepth, houter⟩)
      · exact Or.inl hdepth
  rw [if_neg hclose] at h
  by_cases hdigit : c.isDigit
  · rw [if_pos hdigit] at h
    cases h
    have hw : (w ++ rest).takeWhile isNumberPart = w := (List.cons.inj htext).2
    obtain ⟨hparts, hrest⟩ := takeWhile_append_eq_left.mp hw
    have htoken : (w ++ rest).takeWhile (fun d => isWordPart d || d == '.') = w := hw
    rw [htoken]
    exact .number hdigit hparts hrest
  rw [if_neg hdigit] at h
  by_cases hword : isWordPart c
  · rw [if_pos hword] at h
    have hw : (w ++ rest).takeWhile isWordPart = w := by
      dsimp only at h
      split at h <;> cases h <;> exact (List.cons.inj htext).2
    obtain ⟨hparts, hrest⟩ := takeWhile_append_eq_left.mp hw
    have htoken : (ofWord before (c :: w) rest, CodePlace.mk (.code depth) outer) = (token, q) := by
      rw [← h, hw, dropWhile_of_takeWhile hw]
      unfold ofWord
      split <;> rfl
    cases htoken
    exact .word hdigit (List.forall_mem_cons.mpr ⟨hword, hparts⟩) hrest
  · rw [if_neg hword] at h
    cases h
    cases htext
    exact .mark hquote hopen hclose hdigit hword

theorem next_of_isNext {p : CodePlace} (h : IsNext before p (c :: w) rest token q) :
    next p before c (w ++ rest) = (token, q) := by
  cases h with
  | escape hw =>
      show nextInLiteral _ _ _ _ = _
      rw [nextInLiteral, if_pos rfl, hw]
  | closeQuote hquote =>
      show nextInLiteral _ _ _ _ = _
      rw [nextInLiteral, if_neg hquote, if_pos rfl]
  | openSubstitution => rfl
  | literal hslash hquote hopen =>
      show nextInLiteral _ _ _ _ = _
      rw [nextInLiteral, if_neg hslash, if_neg hquote]
      exact if_neg hopen
  | openQuote hquote =>
      show nextInCode _ _ _ _ _ = _
      rw [nextInCode, if_pos hquote]
      rfl
  | openBrace => rfl
  | @closeBrace depth outer _ hdepth =>
      have hstay : ¬ (depth = 0 ∧ outer ≠ []) := by
        intro hleave
        exact hdepth.elim (fun h => h hleave.1) hleave.2
      show nextInCode _ _ _ _ _ = _
      simp [nextInCode, Text.isQuote, hstay]
  | closeSubstitution => rfl
  | number hc hw hrest =>
      obtain ⟨hopen, hclose, -, hquote⟩ := isMarkFree_of_isWordPart (isWordPart_of_isDigit hc)
      have htake : (w ++ rest).takeWhile (fun d => isWordPart d || d == '.') = w :=
        takeWhile_append_eq_left.mpr ⟨hw, hrest⟩
      show nextInCode _ _ _ _ _ = _
      rw [nextInCode, if_neg hquote, if_neg hopen, if_neg hclose, if_pos hc, htake]
  | word hc hword hrest =>
      obtain ⟨hpart, hparts⟩ := List.forall_mem_cons.mp hword
      obtain ⟨hopen, hclose, -, hquote⟩ := isMarkFree_of_isWordPart hpart
      have htake := takeWhile_append_eq_left.mpr ⟨hparts, hrest⟩
      show nextInCode _ _ _ _ _ = _
      rw [nextInCode, if_neg hquote, if_neg hopen, if_neg hclose, if_neg hc, if_pos hpart]
      dsimp only
      rw [htake, dropWhile_of_takeWhile htake, ofWord]
      split <;> rfl
  | mark hquote hopen hclose hdigit hword =>
      show nextInCode _ _ _ _ _ = _
      rw [nextInCode, if_neg hquote, if_neg hopen, if_neg hclose, if_neg hdigit, if_neg hword]

/-- The lexer obeys the rules. -/
theorem next_eq_iff {p : CodePlace} :
    next p before c (w ++ rest) = (token, q) ∧ token.text = c :: w ↔
      IsNext before p (c :: w) rest token q := by
  constructor
  · intro hspec
    obtain ⟨h, htext⟩ := hspec
    obtain ⟨inner, outer⟩ := p
    cases inner with
    | code depth => exact isNext_of_nextInCode h htext
    | literal quote => exact isNext_of_nextInLiteral h htext
  · intro h
    exact ⟨next_of_isNext h, h.text_eq⟩

end

/-! ### Whole texts -/

/-- A way to cut a token off the front of a text at a place. It is given the text before, last
character first, the first character and the text behind that, and also answers the place behind the
token. -/
abbrev Cutter := CodePlace → Text → Char → Text → CodeToken × CodePlace

/-- Cut tokens off one after the other, and keep the place of each. The first `skip` characters
belong to a token that has been cut off. -/
def lexFrom (cutter : Cutter) (p : CodePlace) (skip : Nat) (before : Text) :
    Text → List (CodePlace × CodeToken)
  | [] => []
  | c :: t =>
    match skip with
    | skip + 1 => lexFrom cutter p skip (c :: before) t
    | 0 =>
      let (token, q) := cutter p before c t
      (p, token) :: lexFrom cutter q (token.text.length - 1) (c :: before) t

/-- The tokens of a text from a place on, with their places. -/
inductive Lexed (cutter : Cutter) : CodePlace → Text → Text → List (CodePlace × CodeToken) → Prop
  | nil {p : CodePlace} {before : Text} : Lexed cutter p before [] []
  | token {p q : CodePlace} {before w t : Text} {c : Char} {token : CodeToken}
      {tokens : List (CodePlace × CodeToken)} (hnext : cutter p before c (w ++ t) = (token, q))
      (htext : token.text = c :: w) (behind : Lexed cutter q (w.reverse ++ c :: before) t tokens) :
      Lexed cutter p before (c :: (w ++ t)) ((p, token) :: tokens)

section

variable {cutter : Cutter}

theorem lexFrom_skip (p : CodePlace) (before w t : Text) :
    lexFrom cutter p w.length before (w ++ t) = lexFrom cutter p 0 (w.reverse ++ before) t := by
  induction w generalizing before with
  | nil => rfl
  | cons c w ih =>
      rw [List.cons_append, List.length_cons, lexFrom, ih]
      simp

theorem lexFrom_token {p q : CodePlace} {before w t : Text} {c : Char} {token : CodeToken}
    (hnext : cutter p before c (w ++ t) = (token, q)) (htext : token.text = c :: w) :
    lexFrom cutter p 0 before (c :: (w ++ t)) =
      (p, token) :: lexFrom cutter q 0 (w.reverse ++ c :: before) t := by
  rw [lexFrom, hnext]
  dsimp only
  rw [htext, List.length_cons, Nat.add_sub_cancel, lexFrom_skip]

/-- A text has no other tokens than those that are cut off one after the other. -/
theorem Lexed.eq_lexFrom {p : CodePlace} {before t : Text} {tokens : List (CodePlace × CodeToken)}
    (h : Lexed cutter p before t tokens) : tokens = lexFrom cutter p 0 before t := by
  induction h with
  | nil => rfl
  | token hnext htext behind ih => rw [lexFrom_token hnext htext, ih]

/-- Nothing is lost between the tokens. -/
theorem Lexed.flatMap_text {p : CodePlace} {before t : Text}
    {tokens : List (CodePlace × CodeToken)} (h : Lexed cutter p before t tokens) :
    tokens.flatMap (·.2.text) = t := by
  induction h with
  | nil => rfl
  | token hnext htext behind ih =>
      rw [List.flatMap_cons, htext, ih]
      rfl

/-- Every text is cut into tokens. -/
theorem lexed_lexFrom (hcutter : ∀ p before c t, (cutter p before c t).1.IsCutOff c t)
    (p : CodePlace) (before t : Text) : Lexed cutter p before t (lexFrom cutter p 0 before t) := by
  -- By induction on the length: behind a token, the rest of the text is cut.
  induction hn : t.length using Nat.strongRecOn generalizing p before t with
  | ind n ih =>
      subst hn
      cases t with
      | nil => exact .nil
      | cons c t =>
          obtain ⟨w, ⟨rest, rfl⟩, htext⟩ := (hcutter p before c t).front
          have hlt : rest.length < (c :: (w ++ rest)).length := by
            simp only [List.length_cons, List.length_append]
            omega
          rw [lexFrom_token rfl htext]
          exact .token rfl htext (ih rest.length hlt _ _ rest rfl)

end

theorem cutFrom_eq_lexFrom (p : CodePlace) (skip : Nat) (before : Text) (tokens : List CodeToken)
    (t : Text) :
    cutFrom p skip before tokens t =
      tokens.reverse ++ (lexFrom next p skip before t).map Prod.snd := by
  induction t generalizing p skip before tokens with
  | nil => simp [cutFrom, lexFrom]
  | cons c t ih =>
      cases skip with
      | succ skip => exact ih ..
      | zero => simp [cutFrom, lexFrom, ih]

/-- The tokens of a body are those of the lexer, without their places. -/
theorem cut_eq_lexFrom (body : Text) : cut body = (lexFrom next .top 0 [] body).map Prod.snd :=
  cutFrom_eq_lexFrom .top 0 [] [] body

end CodeToken

end ElementScript
