import ElementScript.Proofs.Listener.Tokens
import ElementScript.Scan.Block

/-!
# Escapes in code

To the flat scanner a backslash escapes its successor everywhere, to the lexer behind renaming only
in literals. In a body without back quotes that is all in which they differ about literals
(`QuoteState.literalRun`), so they agree about what is quoted exactly if no quote is escaped in code
(`QuoteState.literalRun_agrees_iff`). Renaming replaces the words that are variables and stand
outside of literals as the lexer sees them (`isReplaced_iff`): between two tokens the lexer cuts
neither a word nor a number in two (`Stands`).
-/

namespace ElementScript

/-! ### Literals for the lexer -/

namespace QuoteState

/-- Pass one character as the lexer behind renaming does: a backslash escapes nothing in code. -/
def literalStep (s : QuoteState) (c : Char) : QuoteState :=
  if s.inCode && c == '\\' then s else s.step c

/-- Pass a text so. -/
def literalRun (s : QuoteState) (t : Text) : QuoteState := t.foldl literalStep s

@[simp] theorem literalRun_nil (s : QuoteState) : s.literalRun [] = s := rfl

@[simp] theorem literalRun_cons (s : QuoteState) (c : Char) (t : Text) :
    s.literalRun (c :: t) = (s.literalStep c).literalRun t := rfl

@[simp] theorem literalRun_append (s : QuoteState) (t u : Text) :
    s.literalRun (t ++ u) = (s.literalRun t).literalRun u := by
  simp [literalRun]

/-- A backslash in code stands before a quote of the text. -/
def escapesQuote (s : QuoteState) : Text → Bool
  | [] => false
  | c :: t => s.quote.isNone && s.escaped && Text.isQuote c || escapesQuote (s.step c) t

/-- The state of which an escape in code is forgotten. -/
def forgetEscape (s : QuoteState) : QuoteState := if s.quote.isNone then code else s

theorem forgetEscape_quote (s : QuoteState) : s.forgetEscape.quote = s.quote := by
  unfold forgetEscape
  split
  · rename_i hnone
    exact (Option.isNone_iff_eq_none.mp hnone).symm
  · rfl

/-- What the lexer forgets does not matter, if it is not a quote that is escaped. -/
theorem literalStep_forgetEscape {s : QuoteState} {c : Char}
    (h : ¬ (s.quote.isNone && s.escaped && Text.isQuote c)) :
    s.forgetEscape.literalStep c = (s.step c).forgetEscape := by
  obtain ⟨quote, escaped⟩ := s
  cases quote with
  | none =>
      cases escaped with
      | true =>
          have hquote : ¬ Text.isQuote c := by simpa using h
          by_cases hslash : c = '\\' <;>
            simp [forgetEscape, literalStep, step, inCode, code, hslash, hquote]
      | false =>
          by_cases hslash : c = '\\'
          · simp [forgetEscape, literalStep, step, inCode, code, hslash]
          · by_cases hquote : Text.isQuote c <;>
              simp [forgetEscape, literalStep, step, inCode, code, hslash, hquote]
  | some q =>
      have hstep : (step ⟨some q, escaped⟩ c).forgetEscape = step ⟨some q, escaped⟩ c := by
        unfold step
        split
        · rfl
        · split
          · rfl
          · by_cases hquote : c = q <;> simp [forgetEscape, code, hquote]
      rw [hstep]
      rfl

/-- Before the first quote that is escaped in code, the lexer and the flat scanner agree about
literals, and behind it they do not. -/
theorem literalRun_forgetEscape_iff (s : QuoteState) (t : Text) :
    (∀ u, u <+: t → (s.forgetEscape.literalRun u).quote = (s.run u).quote) ↔
      s.escapesQuote t = false := by
  induction t generalizing s with
  | nil =>
      refine iff_of_true ?_ rfl
      intro u hu
      rw [List.prefix_nil.mp hu]
      exact s.forgetEscape_quote
  | cons c t ih =>
      rw [escapesQuote, Bool.or_eq_false_iff]
      by_cases hescaped : (s.quote.isNone && s.escaped && Text.isQuote c) = true
      · refine iff_of_false ?_ ?_
        · intro h
          have hc := h [c] (List.prefix_append [c] t)
          simp only [Bool.and_eq_true, Option.isNone_iff_eq_none] at hescaped
          obtain ⟨⟨hnone, hescape⟩, hquote⟩ := hescaped
          have hslash := Text.ne_backslash_of_isQuote hquote
          simp [forgetEscape, literalStep, step, inCode, code, hnone, hescape, hslash, hquote] at hc
        · intro h
          exact absurd hescaped (ne_true_of_eq_false h.1)
      · have hstep := literalStep_forgetEscape hescaped
        rw [← ih, and_iff_right (Bool.eq_false_iff.mpr hescaped)]
        constructor
        · intro h u hu
          have hu' := h (c :: u) (List.cons_prefix_cons.mpr ⟨rfl, hu⟩)
          rwa [literalRun_cons, hstep] at hu'
        · intro h u hu
          rcases List.prefix_cons_iff.mp hu with rfl | ⟨v, rfl, hv⟩
          · exact s.forgetEscape_quote
          · rw [literalRun_cons, hstep]
            exact h v hv

/-- The lexer and the flat scanner agree about literals all along a text exactly if no quote of it
is escaped in code. -/
theorem literalRun_agrees_iff (t : Text) :
    (∀ u, u <+: t → (code.literalRun u).quote = (code.run u).quote) ↔
      code.escapesQuote t = false :=
  literalRun_forgetEscape_iff code t

/-- Nothing happens to code in a plain text. -/
theorem literalRun_of_isPlain {t : Text} (h : ∀ c ∈ t, BraceState.isPlain c) :
    code.literalRun t = code := by
  induction t with
  | nil => rfl
  | cons c t ih =>
      obtain ⟨hc, ht⟩ := List.forall_mem_cons.mp h
      simp only [BraceState.isPlain, Bool.and_eq_true, bne_iff_ne, Bool.not_eq_true'] at hc
      obtain ⟨⟨-, hslash⟩, hquote⟩ := hc
      have hstep : code.literalStep c = code := by
        simp [literalStep, step, inCode, code, hslash, hquote]
      rw [literalRun_cons, hstep, ih ht]

end QuoteState

namespace CodeToken

open QuoteState

/-! ### Words and numbers -/

/-- Whether the text before a place, last character first, ends in a number: in a word that begins
with a digit, and dots and words that go on with it. -/
def endsInNumber : Text → Bool
  | [] => false
  | c :: before =>
    isNumberPart c && (c.isDigit && !before.head?.any isWordPart || endsInNumber before)

/-- A word behind no number is no part of one, unless it begins with a digit. -/
theorem endsInNumber_word {before w : Text} (hw : ∀ c ∈ w, isWordPart c)
    (hdigit : ¬ w.getLast?.any Char.isDigit) (h : ¬ endsInNumber before) :
    ¬ endsInNumber (w ++ before) := by
  induction w with
  | nil => exact h
  | cons c w ih =>
      obtain ⟨hc, hw⟩ := List.forall_mem_cons.mp hw
      cases w with
      | nil =>
          have hfirst : c.isDigit = false := by simpa using hdigit
          simp [endsInNumber, hfirst, h]
      | cons d w =>
          have htail := ih hw (by simpa using hdigit)
          have hd : isWordPart d := hw d List.mem_cons_self
          rw [List.cons_append, endsInNumber]
          simp only [Bool.and_eq_true, Bool.or_eq_true, not_and, not_or]
          intro hpart
          refine ⟨?_, htail⟩
          simp [hd]

/-- A digit that begins a word begins a number. -/
theorem endsInNumber_number {before w : Text} {c : Char} (hc : c.isDigit)
    (hbefore : ¬ before.head?.any isWordPart) (hw : ∀ d ∈ w, isNumberPart d) :
    endsInNumber (w ++ c :: before) := by
  induction w with
  | nil =>
      have hpart := isNumberPart_of_isWordPart (isWordPart_of_isDigit hc)
      simp [endsInNumber, hpart, hc, hbefore]
  | cons d w ih =>
      obtain ⟨hd, hw⟩ := List.forall_mem_cons.mp hw
      simp [endsInNumber, hd, ih hw]

/-- A word of a body that names a variable, between the texts around it. -/
structure IsVariable (before word after : Text) : Prop where
  /-- It is a whole word. -/
  isWord : IsWord word
  starts : ¬ before.reverse.head?.any isWordPart
  stops : ¬ after.head?.any isWordPart
  /-- It does not begin with a digit, as numbers do. -/
  noDigit : ¬ word.head?.any Char.isDigit
  /-- It is no property, no key, and no part of a number. -/
  noProperty : ¬ followsDot before.reverse
  noKey : ¬ isKey before.reverse after
  noNumber : ¬ endsInNumber before.reverse

/-- Renaming replaces a word, between the texts around it: it is cut out of the body as a
reference. -/
def IsReplaced (before word after : Text) : Prop :=
  ∃ front behind, front.flatMap text = before ∧ behind.flatMap text = after ∧
    cut (before ++ (word ++ after)) = front ++ .reference word :: behind

/-- A reference is a word of code, and neither a property nor a key. -/
theorem IsNext.of_reference {before u rest word : Text} {p q : CodePlace}
    (h : IsNext before p u rest (.reference word) q) :
    ∃ depth outer, p = ⟨.code depth, outer⟩ ∧ u = word ∧ IsWord word ∧
      ¬ word.head?.any Char.isDigit ∧ ¬ rest.head?.any isWordPart ∧ ¬ followsDot before ∧
      ¬ isKey before rest := by
  generalize htoken : CodeToken.reference word = token at h
  cases h with
  | @word depth outer c w _ hc hword hrest =>
      unfold ofWord at htoken
      split at htoken
      · cases htoken
      · rename_i hreference
        cases htoken
        rw [Bool.or_eq_true, not_or] at hreference
        exact ⟨depth, outer, rfl, rfl, ⟨List.cons_ne_nil c w, hword⟩, hc, hrest, hreference⟩
  | _ => cases htoken

/-- A variable that comes next in code is cut off as a reference. -/
theorem IsVariable.isNext {before word after : Text} {depth : Nat} {outer : List CodeContext}
    (h : IsVariable before.reverse word after) :
    IsNext before ⟨.code depth, outer⟩ word after (.reference word) ⟨.code depth, outer⟩ := by
  obtain ⟨hword, -, hstop, hdigit, hproperty, hkey, -⟩ := h
  rw [List.reverse_reverse] at hproperty hkey
  obtain ⟨c, w, rfl⟩ := List.exists_cons_of_ne_nil hword.1
  have htoken : ofWord before (c :: w) after = .reference (c :: w) := by
    simp [ofWord, hproperty, hkey]
  rw [← htoken]
  exact .word hdigit hword.2 hstop

/-! ### Between two tokens -/

/-- Where the lexer is between two tokens of a text without back quotes, and what it has in mind
with regard to literals. In code, the place cuts no word and no number in two; in a literal, a
backslash is left alone at the end of the text only. -/
inductive Stands (before t : Text) : CodePlace → QuoteState → Prop where
  | code {depth : Nat} (hword : ¬ (before.head?.any isWordPart ∧ t.head?.any isWordPart))
      (hnumber : ¬ (endsInNumber before ∧ t.head?.any isNumberPart)) :
      Stands before t ⟨.code depth, []⟩ .code
  | literal {quote : Char} {escaped : Bool} {depth : Nat} (hquote : Text.isQuote quote)
      (hback : quote ≠ '\x60') (hescaped : escaped → t = []) :
      Stands before t ⟨.literal quote, [.code depth]⟩ ⟨some quote, escaped⟩

namespace Stands

variable {before u rest : Text} {p q : CodePlace} {s : QuoteState} {token : CodeToken}

/-- In a literal, where nothing is escaped, the lexer may stand anywhere. -/
theorem of_literal {quote : Char} {depth : Nat} (hquote : Text.isQuote quote)
    (hback : quote ≠ '\x60') :
    Stands before rest ⟨.literal quote, [.code depth]⟩ ⟨some quote, false⟩ :=
  .literal hquote hback nofun

/-- Behind a mark of code, or of a literal that it closes, nothing is cut in two. -/
theorem behind_mark {c : Char} {depth : Nat} (hword : ¬ isWordPart c)
    (hnumber : c = '.' → ¬ endsInNumber before) :
    Stands (c :: before) rest ⟨.code depth, []⟩ .code := by
  have hdigit : ¬ c.isDigit := fun hc => hword (isWordPart_of_isDigit hc)
  refine .code (fun h => hword h.1) ?_
  intro h
  have hends := h.1
  simp only [endsInNumber, isNumberPart, hword, hdigit, Bool.false_or, Bool.false_and,
    Bool.and_eq_true, beq_iff_eq] at hends
  exact hnumber hends.1 hends.2

/-- Behind a number nothing is cut in two, since it goes as far as it can. -/
theorem behind_number {depth : Nat} (hrest : ¬ rest.head?.any isNumberPart) :
    Stands before rest ⟨.code depth, []⟩ .code := by
  refine .code ?_ fun hcut => hrest hcut.2
  intro hcut
  cases rest with
  | nil => cases hcut.2
  | cons d rest => exact hrest (isNumberPart_of_isWordPart hcut.2)

/-- Behind a word nothing is cut in two, if the word stood behind no number. -/
theorem behind_word {depth : Nat} (hu : ∀ c ∈ u, isWordPart c)
    (hdigit : ¬ u.head?.any Char.isDigit) (hrest : ¬ rest.head?.any isWordPart)
    (hbefore : ¬ endsInNumber before) :
    Stands (u.reverse ++ before) rest ⟨.code depth, []⟩ .code := by
  refine .code (fun hcut => hrest hcut.2) ?_
  intro hcut
  refine endsInNumber_word ?_ ?_ hbefore hcut.1
  · intro c hc
    exact hu c (List.mem_reverse.mp hc)
  · rw [List.getLast?_reverse]
    exact hdigit

/-- One token. -/
theorem behind_isNext (h : Stands before (u ++ rest) p s) (hnext : IsNext before p u rest token q)
    (hback : '\x60' ∉ u) : Stands (u.reverse ++ before) rest q (s.literalRun u) := by
  cases h with
  | @code depth hword hnumber =>
      cases hnext with
      | @openQuote quote _ _ _ hquote =>
          have hopen : QuoteState.code.literalRun [quote] = ⟨some quote, false⟩ := by
            simp [literalStep, step, inCode, QuoteState.code, hquote,
              Text.ne_backslash_of_isQuote hquote]
          rw [hopen]
          refine .of_literal hquote ?_
          intro heq
          exact hback (List.mem_singleton.mpr heq.symm)
      | openBrace => exact behind_mark (by decide) fun hdot => absurd hdot (by decide)
      | closeBrace => exact behind_mark (by decide) fun hdot => absurd hdot (by decide)
      | @number _ _ c w _ hc hw hrest =>
          have hparts : ∀ d ∈ c :: w, isNumberPart d := List.forall_mem_cons.mpr
            ⟨isNumberPart_of_isWordPart (isWordPart_of_isDigit hc), hw⟩
          rw [literalRun_of_isPlain fun d hd => isPlain_of_isNumberPart (hparts d hd)]
          exact behind_number hrest
      | @word _ _ c w _ hc hw hrest =>
          rw [literalRun_of_isPlain fun d hd => isPlain_of_isWordPart (hw d hd)]
          refine behind_word hw hc hrest fun hends => hnumber ⟨hends, ?_⟩
          exact isNumberPart_of_isWordPart (hw c List.mem_cons_self)
      | @mark _ _ c _ hquote hopen hclose hdigit hmark =>
          have hstay : QuoteState.code.literalRun [c] = QuoteState.code := by
            by_cases hslash : c = '\\' <;>
              simp [literalStep, step, inCode, QuoteState.code, hslash, hquote]
          rw [hstay]
          refine behind_mark hmark ?_
          intro hdot hends
          refine hnumber ⟨hends, ?_⟩
          rw [hdot]
          rfl
  | @literal quote escaped depth hquote hne hescaped =>
      obtain rfl : escaped = false := by
        rw [Bool.eq_false_iff]
        intro hescape
        exact hnext.ne_nil (List.append_eq_nil_iff.mp (hescaped hescape)).1
      cases hnext with
      | @escape _ _ w _ hw =>
          -- The escape takes a character along, or the text ends.
          cases w with
          | nil =>
              have hrest : rest = [] := by simpa using hw
              exact .literal hquote hne fun _ => hrest
          | cons d w =>
              obtain rfl : w = [] := by simpa using hw
              exact .of_literal hquote hne
      | closeQuote hslash =>
          have hclose : literalRun ⟨some quote, false⟩ [quote] = .code := by
            simp [literalStep, step, inCode, hslash]
          rw [hclose]
          refine behind_mark (fun hword => (isMarkFree_of_isWordPart hword).2.2.2 hquote) ?_
          intro hdot
          rw [hdot] at hquote
          exact absurd hquote (by decide)
      | openSubstitution => exact absurd rfl hne
      | @literal _ c _ _ hslash hother hopen =>
          have hstay : literalRun ⟨some quote, false⟩ [c] = ⟨some quote, false⟩ := by
            simp [literalStep, step, inCode, hslash, hother]
          rw [hstay]
          exact .of_literal hquote hne

/-- One token that the lexer cuts off. -/
theorem behind_token {w t : Text} {c : Char} (h : Stands before (c :: (w ++ t)) p s)
    (hnext : CodeToken.next p before c (w ++ t) = (token, q)) (htext : token.text = c :: w)
    (hback : '\x60' ∉ c :: w) :
    Stands (w.reverse ++ c :: before) t q (s.literalRun (c :: w)) := by
  have hbehind := Stands.behind_isNext (u := c :: w) h (next_eq_iff.mp ⟨hnext, htext⟩) hback
  rw [List.reverse_cons, List.append_assoc, List.singleton_append] at hbehind
  exact hbehind

/-- A run of tokens. -/
theorem behind_tokens {t : Text} {front tokens : List (CodePlace × CodeToken)}
    (h : Stands before t p s) (hlexed : Lexed CodeToken.next p before t (front ++ tokens))
    (hback : '\x60' ∉ t) :
    ∃ rest q, t = front.flatMap (·.2.text) ++ rest ∧
      Stands ((front.flatMap (·.2.text)).reverse ++ before) rest q
        (s.literalRun (front.flatMap (·.2.text))) ∧
      Lexed CodeToken.next q ((front.flatMap (·.2.text)).reverse ++ before) rest tokens := by
  induction front generalizing before t p s with
  | nil => exact ⟨t, p, rfl, h, hlexed⟩
  | cons x front ih =>
      cases hlexed with
      | @token _ q _ w t c token _ hnext htext behind =>
          rw [← List.cons_append, List.mem_append, not_or] at hback
          have hbehind := h.behind_token hnext htext hback.1
          obtain ⟨rest, r, rfl, hrest, hlexed'⟩ := ih hbehind behind hback.2
          have hbefore : ((c :: w) ++ front.flatMap (·.2.text)).reverse ++ before =
              (front.flatMap (·.2.text)).reverse ++ (w.reverse ++ c :: before) := by
            simp
          rw [List.flatMap_cons, htext, literalRun_append, hbefore]
          exact ⟨rest, r, by simp, hrest, hlexed'⟩

/-- A token that is a reference is a variable, and stands in code. -/
theorem isVariable {t word : Text} {tokens : List (CodePlace × CodeToken)} (h : Stands before t p s)
    (hlexed : Lexed CodeToken.next p before t ((q, .reference word) :: tokens)) :
    IsVariable before.reverse word (tokens.flatMap (·.2.text)) ∧ s.quote = none := by
  cases hlexed with
  | @token _ _ _ w t c _ _ hnext htext behind =>
      obtain ⟨depth, outer, rfl, rfl, hword, hdigit, hstop, hproperty, hkey⟩ :=
        (next_eq_iff.mp ⟨hnext, htext⟩).of_reference
      have hc : isWordPart c := hword.2 c List.mem_cons_self
      cases h with
      | code hstart hnumber =>
          have hpart := isNumberPart_of_isWordPart hc
          refine ⟨⟨hword, ?_, ?_, hdigit, ?_, ?_, ?_⟩, rfl⟩
          · rw [List.reverse_reverse]
            exact fun hcut => hstart ⟨hcut, hc⟩
          · rw [behind.flatMap_text]
            exact hstop
          · rwa [List.reverse_reverse]
          · rwa [List.reverse_reverse, behind.flatMap_text]
          · rw [List.reverse_reverse]
            exact fun hcut => hnumber ⟨hcut, hpart⟩

/-- In code, a token is cut at no place that neither a word nor a number goes across. -/
theorem not_inside {mid v : Text} (h : Stands before ((mid ++ v) ++ rest) p s)
    (hnext : IsNext before p (mid ++ v) rest token q) (hmid : mid ≠ []) (hv : v ≠ [])
    (hstart : ¬ (mid.reverse ++ before).head?.any isWordPart)
    (hnumber : ¬ endsInNumber (mid.reverse ++ before)) : (s.literalRun mid).quote ≠ none := by
  have hsingle (c : Char) : mid ++ v ≠ [c] := by
    intro heq
    rcases List.append_eq_singleton_iff.mp heq with ⟨hnil, -⟩ | ⟨-, hnil⟩
    · exact hmid hnil
    · exact hv hnil
  obtain ⟨d, m, rfl⟩ := List.exists_cons_of_ne_nil hmid
  generalize hu : (d :: m) ++ v = u at h hnext
  cases h with
  | code hcut hcutNumber =>
      cases hnext with
      | @number _ _ c w _ hc hw hrest =>
          obtain ⟨rfl, rfl⟩ := List.cons.inj hu
          have hbefore : ¬ before.head?.any isWordPart :=
            fun hword => hcut ⟨hword, isWordPart_of_isDigit hc⟩
          have hends := endsInNumber_number (w := m.reverse) hc hbefore fun e he =>
            hw e (List.mem_append_left v (List.mem_reverse.mp he))
          refine absurd ?_ hnumber
          simpa using hends
      | @word _ _ c w _ hc hw hrest =>
          rw [← hu] at hw
          have hlast : ∀ e ∈ (d :: m).reverse, isWordPart e := fun e he =>
            hw e (List.mem_append_left v (List.mem_reverse.mp he))
          obtain ⟨e, m', hreverse⟩ := List.exists_cons_of_ne_nil
            (mt List.reverse_eq_nil_iff.mp hmid)
          rw [hreverse] at hlast hstart
          exact absurd (hlast e List.mem_cons_self) hstart
      | _ => exact absurd hu (hsingle _)
  | @literal quote escaped depth hquote hne hescaped =>
      cases hnext with
      | @escape _ _ w _ hw =>
          -- The place can only be that between the backslash and what it takes along.
          obtain ⟨rfl, rfl⟩ := List.cons.inj hu
          cases m with
          | nil => cases escaped <;> simp [literalStep, step, inCode]
          | cons e m =>
              have hnil : m ++ v = [] := by simpa using hw
              exact absurd (List.append_eq_nil_iff.mp hnil).2 hv
      | openSubstitution => exact absurd rfl hne
      | _ => exact absurd hu (hsingle _)

end Stands

/-! ### Whole bodies -/

/-- A variable that stands outside of literals is cut off as a reference. -/
theorem Lexed.exists_reference {before t mid word after : Text} {p : CodePlace} {s : QuoteState}
    {tokens : List (CodePlace × CodeToken)} (hlexed : Lexed next p before t tokens)
    (h : Stands before t p s) (hback : '\x60' ∉ t) (ht : t = mid ++ (word ++ after))
    (hvariable : IsVariable (before.reverse ++ mid) word after)
    (hcode : (s.literalRun mid).quote = none) :
    ∃ front q behind, tokens = front ++ (q, .reference word) :: behind ∧
      front.flatMap (·.2.text) = mid ∧ behind.flatMap (·.2.text) = after := by
  induction hlexed generalizing s mid with
  | nil =>
      have hword := (List.append_eq_nil_iff.mp (List.append_eq_nil_iff.mp ht.symm).2).1
      exact absurd hword hvariable.isWord.1
  | @token p q before w t c token tokens hnext htext behind ih =>
      rw [← List.cons_append] at ht
      rw [← List.cons_append, List.mem_append, not_or] at hback
      have hbehind := h.behind_token hnext htext hback.1
      rcases Text.append_eq_append_cases ht with ⟨mid', rfl, ht'⟩ | ⟨v, hv, hu, hafter⟩
      · -- The variable stands behind this token.
        rw [literalRun_append] at hcode
        have hbefore : before.reverse ++ ((c :: w) ++ mid') =
            (w.reverse ++ c :: before).reverse ++ mid' := by
          simp
        rw [hbefore] at hvariable
        obtain ⟨front, r, behind', rfl, hfront, hafter⟩ := ih hbehind hback.2 ht' hvariable hcode
        refine ⟨(p, token) :: front, r, behind', rfl, ?_, hafter⟩
        rw [List.flatMap_cons, htext, hfront]
      · by_cases hmid : mid = []
        · -- It comes next.
          subst hmid
          rw [List.append_nil] at hvariable
          cases h with
          | @code depth =>
              obtain ⟨d, w', rfl⟩ := List.exists_cons_of_ne_nil hvariable.isWord.1
              obtain rfl : c = d := (List.cons.inj ht).1
              have hw : w ++ t = w' ++ after := (List.cons.inj ht).2
              have hreference : next ⟨.code depth, []⟩ before c (w' ++ after) =
                  (.reference (c :: w'), ⟨.code depth, []⟩) := next_of_isNext hvariable.isNext
              rw [← hw, hnext] at hreference
              cases hreference
              cases htext
              obtain rfl := List.append_cancel_left hw
              exact ⟨[], _, tokens, rfl, rfl, behind.flatMap_text⟩
          | literal => cases hcode
        · -- It cannot begin inside of this token.
          have hisNext := next_eq_iff.mp ⟨hnext, htext⟩
          rw [← List.cons_append, hu] at h
          rw [hu] at hisNext
          refine absurd hcode (h.not_inside hisNext hmid hv ?_ ?_)
          · have hstart := hvariable.starts
            rwa [List.reverse_append, List.reverse_reverse] at hstart
          · have hnumber := hvariable.noNumber
            rwa [List.reverse_append, List.reverse_reverse] at hnumber

/-- Renaming replaces exactly the variables that stand outside of literals, as the lexer sees
them. -/
theorem isReplaced_iff {before word after : Text} (hback : '\x60' ∉ before ++ (word ++ after)) :
    IsReplaced before word after ↔
      IsVariable before word after ∧ (code.literalRun before).quote = none := by
  have hlexed := lexed_lexFrom isCutOff_next .top [] (before ++ (word ++ after))
  have hstands : Stands [] (before ++ (word ++ after)) .top code := .code nofun nofun
  constructor
  · intro h
    obtain ⟨front, behind, rfl, rfl, hcut⟩ := h
    rw [cut_eq_lexFrom] at hcut
    obtain ⟨front, tokens, htokens, rfl, htail⟩ := List.map_eq_append_iff.mp hcut
    obtain ⟨⟨q, token⟩, behind, rfl, rfl, rfl⟩ := List.map_eq_cons_iff.mp htail
    rw [htokens] at hlexed
    obtain ⟨rest, r, -, hstands', hlexed'⟩ := hstands.behind_tokens hlexed hback
    obtain ⟨hvariable, hquote⟩ := hstands'.isVariable hlexed'
    rw [List.append_nil, List.reverse_reverse] at hvariable
    rw [List.flatMap_map, List.flatMap_map]
    exact ⟨hvariable, hquote⟩
  · intro hspec
    obtain ⟨hvariable, hcode⟩ := hspec
    obtain ⟨front, q, behind, htokens, hfront, hbehind⟩ :=
      hlexed.exists_reference hstands hback rfl hvariable hcode
    refine ⟨front.map Prod.snd, behind.map Prod.snd, ?_, ?_, ?_⟩
    · rw [List.flatMap_map]
      exact hfront
    · rw [List.flatMap_map]
      exact hbehind
    · rw [cut_eq_lexFrom, htokens]
      simp

/-- What renaming makes of a body in which it replaces a word. -/
theorem IsReplaced.renameReferences_eq {before word after : Text}
    (h : IsReplaced before word after) :
    ∃ front behind : List CodeToken, front.flatMap text = before ∧ behind.flatMap text = after ∧
      ∀ renames, renameReferences renames (before ++ (word ++ after)) =
        front.flatMap (rename renames) ++
          (substitute renames word ++ behind.flatMap (rename renames)) := by
  obtain ⟨front, behind, hfront, hbehind, hcut⟩ := h
  refine ⟨front, behind, hfront, hbehind, ?_⟩
  intro renames
  rw [renameReferences, hcut, List.flatMap_append, List.flatMap_cons]
  rfl

/-- In a body without back quotes, renaming replaces exactly the variables that stand outside of
literals, where a backslash escapes nothing in code. The flat scanner agrees about literals all
along the body exactly if no quote is escaped in code; and then renaming replaces every variable
that stands outside of literals to the flat scanner, and nothing in its literals. -/
theorem renameReferences_variables {body : Text} (hback : '\x60' ∉ body) :
    (∀ before word after, body = before ++ (word ++ after) →
      (IsReplaced before word after ↔
        IsVariable before word after ∧ (code.literalRun before).quote = none)) ∧
    ((∀ u, u <+: body → (code.literalRun u).quote = ((BraceState.atDepth 1).run u).quote) ↔
      code.escapesQuote body = false) ∧
    (code.escapesQuote body = false → ∀ before word after, body = before ++ (word ++ after) →
      (IsVariable before word after → ((BraceState.atDepth 1).run before).quote = none →
        ∃ front behind : List CodeToken, front.flatMap text = before ∧
          behind.flatMap text = after ∧
          ∀ renames, renameReferences renames body = front.flatMap (rename renames) ++
            (substitute renames word ++ behind.flatMap (rename renames))) ∧
      (((BraceState.atDepth 1).run before).quote ≠ none → ¬ IsReplaced before word after)) := by
  have hflat (u : Text) : ((BraceState.atDepth 1).run u).quote = (code.run u).quote :=
    congrArg QuoteState.quote (BraceState.run_toQuoteState (.atDepth 1) u)
  simp only [hflat]
  refine ⟨?_, literalRun_agrees_iff body, ?_⟩
  · intro before word after heq
    exact isReplaced_iff (heq ▸ hback)
  · intro hescapes before word after heq
    have hagrees := (literalRun_agrees_iff body).mpr hescapes before (heq ▸ List.prefix_append ..)
    have hreplaced := isReplaced_iff (heq ▸ hback : '\x60' ∉ before ++ (word ++ after))
    rw [hagrees] at hreplaced
    refine ⟨?_, ?_⟩
    · intro hvariable hquote
      have h := hreplaced.mpr ⟨hvariable, hquote⟩
      rw [heq]
      exact h.renameReferences_eq
    · intro hquote h
      exact hquote (hreplaced.mp h).2

/-- A quote that is escaped in a literal hides nothing. In code, it hides the variables behind it:
the block is found around them, but they keep their names. -/
theorem escapedQuote_variables :
    (∃ front behind : List CodeToken, front.flatMap text = "f('\\'v', ".toList ∧
      behind.flatMap text = ");".toList ∧
      ∀ renames, renameReferences renames "f('\\'v', v);".toList = front.flatMap (rename renames) ++
        (substitute renames ['v'] ++ behind.flatMap (rename renames))) ∧
    Block.firstFrom "\x7bx = /\\'/; f(v);\x7d".toList 0 = .ok ⟨0, 0, 17⟩ ∧
    IsVariable "x = /\\'/; f(".toList ['v'] ");".toList ∧
    ((BraceState.atDepth 1).run "x = /\\'/; f(".toList).quote = none ∧
    ¬ IsReplaced "x = /\\'/; f(".toList ['v'] ");".toList ∧
    renameReferences [(['v'], "newValue".toList)] "x = /\\'/; f(v);".toList =
      "x = /\\'/; f(v);".toList := by
  have hword : IsWord ['v'] := ⟨List.cons_ne_nil 'v' [], List.forall_mem_singleton.mpr (by decide)⟩
  have hvariable : IsVariable "f('\\'v', ".toList ['v'] ");".toList :=
    ⟨hword, by decide, by decide, by decide, by decide, by decide, by decide⟩
  have hhidden : IsVariable "x = /\\'/; f(".toList ['v'] ");".toList :=
    ⟨hword, by decide, by decide, by decide, by decide, by decide, by decide⟩
  have hback : '\x60' ∉ "f('\\'v', v);".toList := by decide
  have hback' : '\x60' ∉ "x = /\\'/; f(v);".toList := by decide
  have hreplaced := (renameReferences_variables hback).2.2 (by decide) "f('\\'v', ".toList ['v']
    ");".toList (by decide)
  have hkept := (renameReferences_variables hback').1 "x = /\\'/; f(".toList ['v'] ");".toList
    (by decide)
  refine ⟨hreplaced.1 hvariable (by decide), rfl, hhidden, by decide, ?_, by decide⟩
  intro h
  exact absurd (hkept.mp h).2 (by decide)

end CodeToken

end ElementScript
