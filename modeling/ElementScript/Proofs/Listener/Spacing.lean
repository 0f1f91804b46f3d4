import ElementScript.Proofs.Listener.Respelling

/-!
# Blanks around marks of code

A dot, comma, opening brace or colon of code is a token of its own, and so are blanks next to it.
What the lexer looks at ahead of a token (`SeesAhead`) and behind it (`SeesBehind`) is the same with
such blanks as without, with one exception: behind a dot it looks at the very next character. So
renaming commutes with blanks around marks, unless they part a dot from a word that it would replace
elsewhere (`renameReferences_insertBlanks`).
-/

namespace ElementScript

namespace CodeToken

/-! ### Blanks and marks -/

/-- A blank in ASCII. -/
def isAsciiBlank (c : Char) : Bool := Text.isBlank c && c.toNat < 0x80

/-- A mark next to which blanks should not matter. -/
def isSpacedMark (c : Char) : Bool := c == '.' || c == ',' || c == '{' || c == ':'

theorem isBlank_of_isAsciiBlank {c : Char} (h : isAsciiBlank c) : Text.isBlank c :=
  (Bool.and_eq_true_iff.mp h).1

/-- A blank in ASCII is part of no word and of no number. -/
theorem not_isNumberPart_of_isAsciiBlank {c : Char} (h : isAsciiBlank c) : ¬ isNumberPart c := by
  obtain ⟨hblank, hascii⟩ := Bool.and_eq_true_iff.mp h
  have hlt : c.toNat < 0x80 := of_decide_eq_true hascii
  intro hpart
  simp only [isNumberPart, isWordPart, Bool.or_eq_true, beq_iff_eq, decide_eq_true_eq] at hpart
  rcases hpart with (hpart | hge) | rfl
  · exact Text.not_isBlank_of_isIdentifierPart hpart hblank
  · omega
  · exact absurd hblank (by decide)

theorem not_isBlank_of_isSpacedMark {c : Char} (h : isSpacedMark c) : ¬ Text.isBlank c := by
  simp only [isSpacedMark, Bool.or_eq_true, beq_iff_eq] at h
  rcases h with ((rfl | rfl) | rfl) | rfl <;> decide

/-- Behind blanks, a mark is the first sign. -/
theorem trimStart_blanks {ws t : Text} {m : Char} (hws : ∀ c ∈ ws, isAsciiBlank c)
    (hm : isSpacedMark m) : Text.trimStart (ws ++ m :: t) = m :: t :=
  Text.trimStart_append_cons (fun c hc => isBlank_of_isAsciiBlank (hws c hc))
    (not_isBlank_of_isSpacedMark hm)

section

variable {before t : Text} {depth : Nat} {outer : List CodeContext}

/-- In code, a blank is a token of its own. -/
theorem isNext_blank {c : Char} (hc : isAsciiBlank c) :
    IsNext before ⟨.code depth, outer⟩ [c] t (fixed [c]) ⟨.code depth, outer⟩ := by
  have hpart := not_isNumberPart_of_isAsciiBlank hc
  have hblank := isBlank_of_isAsciiBlank hc
  refine .mark ?_ ?_ ?_ (fun h => hpart (isNumberPart_of_isWordPart (isWordPart_of_isDigit h)))
    fun h => hpart (isNumberPart_of_isWordPart h)
  · intro hquote
    simp only [Text.isQuote, Bool.or_eq_true, beq_iff_eq] at hquote
    rcases hquote with (rfl | rfl) | rfl <;> exact absurd hblank (by decide)
  · rintro rfl
    exact absurd hblank (by decide)
  · rintro rfl
    exact absurd hblank (by decide)

/-- So is a mark. It is cut off whatever stands around it, and code follows. -/
theorem IsNext.of_isSpacedMark {m : Char} {token : CodeToken} {q : CodePlace}
    (h : IsNext before ⟨.code depth, outer⟩ [m] t token q) (hm : isSpacedMark m) :
    ∃ depth', q = ⟨.code depth', outer⟩ ∧
      ∀ before' t', IsNext before' ⟨.code depth, outer⟩ [m] t' (fixed [m]) q := by
  have hmarks : m ≠ '}' ∧ ¬ Text.isQuote m ∧ ¬ isWordPart m := by
    simp only [isSpacedMark, Bool.or_eq_true, beq_iff_eq] at hm
    rcases hm with ((rfl | rfl) | rfl) | rfl <;> decide
  obtain ⟨hclose, hquote, hword⟩ := hmarks
  cases h with
  | openQuote hquote' => exact absurd hquote' hquote
  | openBrace => exact ⟨depth + 1, rfl, fun _ _ => .openBrace⟩
  | closeBrace => exact absurd rfl hclose
  | closeSubstitution => exact absurd rfl hclose
  | number hc => exact absurd (isWordPart_of_isDigit hc) hword
  | word _ hparts => exact absurd (hparts m List.mem_cons_self) hword
  | mark hquote' hopen hclose' hdigit hword' =>
      exact ⟨depth, rfl, fun _ _ => .mark hquote' hopen hclose' hdigit hword'⟩

end

/-! ### What is seen ahead of a token -/

/-- In `t'`, the lexer sees ahead what it sees in `t`. -/
structure SeesAhead (t t' : Text) : Prop where
  ends : t = [] → t' = []
  brace : t'.head? = some '{' → t.head? = some '{'
  numberPart : t'.head?.any isNumberPart → t.head?.any isNumberPart
  wordPart : t'.head?.any isWordPart → t.head?.any isWordPart
  colon : (Text.trimStart t').head?.any (· == ':') = (Text.trimStart t).head?.any (· == ':')

namespace SeesAhead

variable {t t' : Text}

/-- It makes no difference that more text stands in front. -/
theorem append (h : SeesAhead t t') (u : Text) : SeesAhead (u ++ t) (u ++ t') := by
  induction u with
  | nil => exact h
  | cons c u ih =>
      refine ⟨nofun, id, id, id, ?_⟩
      by_cases hc : Text.isBlank c
      · simpa [Text.trimStart, hc] using ih.colon
      · simp [Text.trimStart, hc]

/-- Blanks in front of a mark. -/
theorem of_blanks {ws : Text} {m : Char} (hws : ∀ c ∈ ws, isAsciiBlank c) (hm : isSpacedMark m) :
    SeesAhead (m :: t) (ws ++ m :: t) := by
  have hcolon : (Text.trimStart (ws ++ m :: t)).head?.any (· == ':') =
      (Text.trimStart (m :: t)).head?.any (· == ':') := by
    have htrim : Text.trimStart (m :: t) = m :: t := trimStart_blanks (List.forall_mem_nil _) hm
    rw [trimStart_blanks hws hm, htrim]
  cases ws with
  | nil => exact ⟨nofun, id, id, id, rfl⟩
  | cons c ws =>
      have hc := hws c List.mem_cons_self
      have hpart := not_isNumberPart_of_isAsciiBlank hc
      refine ⟨nofun, fun hbrace => ?_, fun h => absurd h hpart,
        fun h => absurd (isNumberPart_of_isWordPart h) hpart, hcolon⟩
      obtain rfl : c = '{' := Option.some.inj hbrace
      exact absurd hc (by decide)

/-- Text behind a mark. -/
theorem behind_mark {m : Char} (hm : isSpacedMark m) : SeesAhead (m :: t) (m :: t') := by
  have hblank := not_isBlank_of_isSpacedMark hm
  exact ⟨nofun, id, id, id, by simp [Text.trimStart, hblank]⟩

end SeesAhead

/-- What is seen ahead decides on a token. -/
theorem IsNext.of_seesAhead {before u t t' : Text} {p q : CodePlace} {token : CodeToken}
    (h : IsNext before p u t token q) (hahead : SeesAhead t t') :
    IsNext before p u t' token q := by
  cases h with
  | @escape _ _ w _ hw =>
      refine .escape ?_
      cases w with
      | nil =>
          have hnil : t = [] := by simpa using hw
          rw [hahead.ends hnil]
          rfl
      | cons d w => simpa using hw
  | closeQuote hquote => exact .closeQuote hquote
  | openSubstitution => exact .openSubstitution
  | literal hslash hquote hopen =>
      exact .literal hslash hquote fun hbrace =>
        hopen ⟨hbrace.1, hbrace.2.1, hahead.brace hbrace.2.2⟩
  | openQuote hquote => exact .openQuote hquote
  | openBrace => exact .openBrace
  | closeBrace hdepth => exact .closeBrace hdepth
  | closeSubstitution => exact .closeSubstitution
  | number hc hw hrest => exact .number hc hw fun hpart => hrest (hahead.numberPart hpart)
  | @word _ _ c w _ hc hword hrest =>
      have hkey : isKey before t' = isKey before t := by
        rw [isKey_eq, isKey_eq, hahead.colon]
      rw [ofWord, ← hkey]
      exact .word hc hword fun hpart => hrest (hahead.wordPart hpart)
  | mark hquote hopen hclose hdigit hword => exact .mark hquote hopen hclose hdigit hword

/-- Behind the tokens in front, other tokens may take the place of those that follow, if what is
seen ahead is the same. -/
theorem Lexed.exists_exchange {p : CodePlace} {before t : Text}
    {front tokens : List (CodePlace × CodeToken)} (h : Lexed next p before t (front ++ tokens)) :
    ∃ q rest, t = front.flatMap (·.2.text) ++ rest ∧
      Lexed next q ((front.flatMap (·.2.text)).reverse ++ before) rest tokens ∧
      ∀ rest' tokens', SeesAhead rest rest' →
        Lexed next q ((front.flatMap (·.2.text)).reverse ++ before) rest' tokens' →
        Lexed next p before (front.flatMap (·.2.text) ++ rest') (front ++ tokens') := by
  induction front generalizing p before t with
  | nil => exact ⟨p, t, rfl, h, fun _ _ _ h' => h'⟩
  | cons x front ih =>
      cases h with
      | @token _ _ _ w t c token _ hnext htext behind =>
          obtain ⟨q, rest, rfl, hrest, hexchange⟩ := ih behind
          have hbefore : (((p, token) :: front).flatMap (·.2.text)).reverse ++ before =
              (front.flatMap (·.2.text)).reverse ++ (w.reverse ++ c :: before) := by
            simp [htext]
          rw [hbefore, List.flatMap_cons, htext]
          refine ⟨q, rest, by simp, hrest, ?_⟩
          intro rest' tokens' hahead h'
          have hnext' := (next_eq_iff.mp ⟨hnext, htext⟩).of_seesAhead (hahead.append _)
          rw [List.cons_append, List.cons_append, List.append_assoc]
          exact .token (next_of_isNext hnext') htext (hexchange rest' tokens' hahead h')

/-! ### What is seen behind a token -/

/-- The number of dots that the text begins with. -/
def dotCount (t : Text) : Nat := (t.takeWhile (· == '.')).length

theorem dotCount_dot (t : Text) : dotCount ('.' :: t) = dotCount t + 1 := rfl

/-- Dots are counted across a seam if the first part is made of dots only. -/
theorem dotCount_append (u t : Text) :
    dotCount (u ++ t) = if u.all (· == '.') then u.length + dotCount t else dotCount u := by
  induction u with
  | nil => simp
  | cons c u ih =>
      by_cases hc : c = '.'
      · subst hc
        rw [List.cons_append, dotCount_dot, dotCount_dot, ih]
        simp only [List.all_cons, BEq.rfl, Bool.true_and, List.length_cons]
        split <;> omega
      · simp [dotCount, hc]

/-- A run of dots at the start of a text is no longer than all that there are. -/
theorem length_le_dotCount {u t : Text} (hu : u.all (· == '.')) (h : u <+: t) :
    u.length ≤ dotCount t := by
  obtain ⟨rest, rfl⟩ := h
  rw [dotCount_append, if_pos hu]
  omega

/-- A word is a property behind so many dots. -/
def isPropertyCount (dots : Nat) : Bool := dots == 1 || dots == 2

/-- Behind `before'`, and whatever the text `t` begins with, the lexer sees what it sees behind
`before`. -/
def SeesBehind (before before' t : Text) : Prop :=
  ∀ u, u <+: t → followsDot (u.reverse ++ before') = followsDot (u.reverse ++ before) ∧
    ∀ after, isKey (u.reverse ++ before') after = isKey (u.reverse ++ before) after

namespace SeesBehind

variable {before before' t : Text}

/-- What stands behind a text that is passed is seen further on. -/
theorem of_append {u : Text} (h : SeesBehind before before' (u ++ t)) :
    SeesBehind (u.reverse ++ before) (u.reverse ++ before') t := by
  intro w hw
  have hsame := h (u ++ w) ((List.prefix_append_right_inj u).mpr hw)
  simpa using hsame

/-- The lexer looks for the last sign behind and for the dots that are joined to the next word. -/
theorem of_dotCount
    (hdots : ∀ n ≤ dotCount t,
      isPropertyCount (n + dotCount before') = isPropertyCount (n + dotCount before))
    (hsign : (Text.trimStart before').head? = (Text.trimStart before).head?) :
    SeesBehind before before' t := by
  intro u hu
  refine ⟨?_, fun after => ?_⟩
  · have hcount (before : Text) :
        followsDot (u.reverse ++ before) = isPropertyCount (dotCount (u.reverse ++ before)) :=
      followsDot_eq _
    rw [hcount, hcount, dotCount_append, dotCount_append]
    split
    · rename_i hall
      have hlength := length_le_dotCount (by simpa using hall) hu
      rw [List.length_reverse, hdots u.length hlength]
    · rfl
  · have htrim : (Text.trimStart (u.reverse ++ before')).head? =
        (Text.trimStart (u.reverse ++ before)).head? := by
      generalize u.reverse = w
      induction w with
      | nil => exact hsign
      | cons c w ih =>
          by_cases hc : Text.isBlank c
          · simpa [Text.trimStart, hc] using ih
          · simp [Text.trimStart, hc]
    rw [isKey_eq, isKey_eq, htrim]

end SeesBehind

/-- A word begins with the character, and no number does. -/
def startsWord (c : Char) : Bool := isWordPart c && !c.isDigit

/-- What is seen behind a token decides on it if it is a word, and on no other token. -/
theorem IsNext.of_seesBehind {before before' u t : Text} {p q : CodePlace} {token : CodeToken}
    (h : IsNext before p u t token q)
    (hsame : u.head?.any startsWord → followsDot before' = followsDot before ∧
      ∀ after, isKey before' after = isKey before after) : IsNext before' p u t token q := by
  cases h with
  | escape hw => exact .escape hw
  | closeQuote hquote => exact .closeQuote hquote
  | openSubstitution => exact .openSubstitution
  | literal hslash hquote hopen => exact .literal hslash hquote hopen
  | openQuote hquote => exact .openQuote hquote
  | openBrace => exact .openBrace
  | closeBrace hdepth => exact .closeBrace hdepth
  | closeSubstitution => exact .closeSubstitution
  | number hc hw hrest => exact .number hc hw hrest
  | @word _ _ c w _ hc hword hrest =>
      have hstarts : startsWord c := by simp [startsWord, hword c List.mem_cons_self, hc]
      obtain ⟨hdot, hkey⟩ := hsame hstarts
      rw [ofWord, ← hdot, ← hkey]
      exact .word hc hword hrest
  | mark hquote hopen hclose hdigit hword => exact .mark hquote hopen hclose hdigit hword

/-- What is seen behind a text decides on its tokens. -/
theorem Lexed.of_seesBehind {p : CodePlace} {before before' t : Text}
    {tokens : List (CodePlace × CodeToken)} (h : Lexed next p before t tokens)
    (hsame : SeesBehind before before' t) : Lexed next p before' t tokens := by
  induction h generalizing before' with
  | nil => exact .nil
  | @token p q before w t c token tokens hnext htext behind ih =>
      have hnext' := (next_eq_iff.mp ⟨hnext, htext⟩).of_seesBehind fun _ => hsame [] List.nil_prefix
      have hpass : SeesBehind (w.reverse ++ c :: before) (w.reverse ++ c :: before') t := by
        have hpass := SeesBehind.of_append (u := c :: w) hsame
        simpa using hpass
      exact .token (next_of_isNext hnext') htext (ih hpass)

/-- What is seen behind a text decides on its first token only if that is a word. -/
theorem Lexed.behind_of_not_word {p : CodePlace} {before before' t : Text}
    {tokens : List (CodePlace × CodeToken)} (h : Lexed next p before t tokens)
    (hstart : ¬ t.head?.any startsWord)
    (hsame : ∀ c t', t = c :: t' → SeesBehind (c :: before) (c :: before') t') :
    Lexed next p before' t tokens := by
  cases h with
  | nil => exact .nil
  | @token _ q _ w t c token tokens hnext htext behind =>
      have hnext' : IsNext before' p (c :: w) t token q :=
        (next_eq_iff.mp ⟨hnext, htext⟩).of_seesBehind fun hword => absurd hword hstart
      have hpass := (hsame c (w ++ t) rfl).of_append
      exact .token (next_of_isNext hnext') htext (behind.of_seesBehind hpass)

/-- A word of code is cut off as such, whatever stands behind it. -/
theorem Lexed.exists_word {before t : Text} {c : Char} {depth : Nat} {outer : List CodeContext}
    {tokens : List (CodePlace × CodeToken)} (hc : startsWord c)
    (h : Lexed next ⟨.code depth, outer⟩ before (c :: t) tokens) :
    ∃ word after behind, c :: t = word ++ after ∧ (c :: t).takeWhile isWordPart = word ∧
      tokens = (⟨.code depth, outer⟩, ofWord before word after) :: behind ∧
      ∀ before', SeesBehind (c :: before) (c :: before') t →
        Lexed next ⟨.code depth, outer⟩ before' (c :: t)
          ((⟨.code depth, outer⟩, ofWord before' word after) :: behind) := by
  obtain ⟨hword, hdigit⟩ := Bool.and_eq_true_iff.mp hc
  have hdigit : ¬ c.isDigit := by simpa using hdigit
  obtain ⟨hopen, hclose, -, hquote⟩ := isMarkFree_of_isWordPart hword
  generalize ht : c :: t = text at h
  cases h with
  | nil => cases ht
  | @token _ q _ w t' d token behind hnext htext hbehind =>
      obtain ⟨rfl, rfl⟩ := List.cons.inj ht
      have hisNext := next_eq_iff.mp ⟨hnext, htext⟩
      cases hisNext with
      | openQuote hquote' => exact absurd hquote' hquote
      | openBrace => exact absurd rfl hopen
      | closeBrace => exact absurd rfl hclose
      | closeSubstitution => exact absurd rfl hclose
      | number hc' => exact absurd hc' hdigit
      | mark _ _ _ _ hword' => exact absurd hword hword'
      | word hc' hparts hrest =>
          refine ⟨c :: w, t', behind, rfl, takeWhile_append_eq_left.mpr ⟨hparts, hrest⟩, rfl, ?_⟩
          intro before' hsame
          have hnext' : IsNext before' ⟨.code depth, outer⟩ (c :: w) t'
            (ofWord before' (c :: w) t') ⟨.code depth, outer⟩ := .word hc' hparts hrest
          exact .token (next_of_isNext hnext') (text_ofWord ..)
            (hbehind.of_seesBehind hsame.of_append)

/-! ### Blanks next to a mark -/

/-- Blanks of code and their places. -/
def blankTokens (place : CodePlace) (ws : Text) : List (CodePlace × CodeToken) :=
  ws.map fun c => (place, fixed [c])

theorem flatMap_rename_blankTokens (place : CodePlace) (ws : Text)
    (renames : List (Text × Text)) : (blankTokens place ws).flatMap (·.2.rename renames) = ws := by
  simp [blankTokens, List.flatMap_map, CodeToken.rename]

theorem lexed_blankTokens {before ws t : Text} {depth : Nat} {outer : List CodeContext}
    {tokens : List (CodePlace × CodeToken)} (hws : ∀ c ∈ ws, isAsciiBlank c)
    (h : Lexed next ⟨.code depth, outer⟩ (ws.reverse ++ before) t tokens) :
    Lexed next ⟨.code depth, outer⟩ before (ws ++ t)
      (blankTokens ⟨.code depth, outer⟩ ws ++ tokens) := by
  induction ws generalizing before with
  | nil => exact h
  | cons c ws ih =>
      obtain ⟨hc, hws⟩ := List.forall_mem_cons.mp hws
      have hnext : next ⟨.code depth, outer⟩ before c ([] ++ (ws ++ t)) = _ :=
        next_of_isNext (isNext_blank hc)
      rw [List.reverse_cons, List.append_assoc] at h
      exact .token (w := []) hnext rfl (ih hws h)

/-- A mark of code is cut off whatever stands around it. -/
theorem Lexed.exists_mark {before t : Text} {m : Char} {p : CodePlace} {depth : Nat}
    {outer : List CodeContext} {behind : List (CodePlace × CodeToken)} (hm : isSpacedMark m)
    (h : Lexed next p before t ((⟨.code depth, outer⟩, fixed [m]) :: behind)) :
    ∃ after depth', p = ⟨.code depth, outer⟩ ∧ t = m :: after ∧
      Lexed next ⟨.code depth', outer⟩ (m :: before) after behind ∧
      ∀ before' t' tokens', Lexed next ⟨.code depth', outer⟩ (m :: before') t' tokens' →
        Lexed next ⟨.code depth, outer⟩ before' (m :: t')
          ((⟨.code depth, outer⟩, fixed [m]) :: tokens') := by
  cases h with
  | @token _ q _ w after c _ _ hnext htext hbehind =>
      obtain ⟨rfl, rfl⟩ := List.cons.inj htext
      obtain ⟨depth', rfl, hany⟩ := (next_eq_iff.mp ⟨hnext, htext⟩).of_isSpacedMark hm
      refine ⟨after, depth', rfl, rfl, hbehind, ?_⟩
      intro before' t' tokens' h'
      have hnext' : next ⟨.code depth, outer⟩ before' m ([] ++ t') = _ :=
        next_of_isNext (hany before' t')
      exact .token hnext' rfl h'

/-- Renaming a text, told by its tokens. -/
theorem Lexed.renameReferences_eq {t : Text} {tokens : List (CodePlace × CodeToken)}
    (h : Lexed next .top [] t tokens) (renames : List (Text × Text)) :
    renameReferences renames t = tokens.flatMap (·.2.rename renames) := by
  rw [renameReferences, cut_eq_lexFrom, ← h.eq_lexFrom, List.flatMap_map]

/-- A mark that stands in code of the body, and is no dot of a spread. -/
structure CodeMark (body : Text) where
  /-- The tokens in front of it, with their places. -/
  front : List (CodePlace × CodeToken)
  /-- The mark. -/
  mark : Char
  /-- The tokens behind it. -/
  behind : List (CodePlace × CodeToken)
  depth : Nat
  outer : List CodeContext
  isSpacedMark_mark : isSpacedMark mark
  lexFrom_eq :
    lexFrom next .top 0 [] body = front ++ (⟨.code depth, outer⟩, fixed [mark]) :: behind
  /-- Three dots in a row are a spread. -/
  noSpread : mark = '.' →
    dotCount (front.flatMap (·.2.text)).reverse + dotCount (behind.flatMap (·.2.text)) < 2

namespace CodeMark

variable {body : Text} (k : CodeMark body)

/-- The text in front of the mark. -/
def before : Text := k.front.flatMap (·.2.text)

/-- The text behind the mark. -/
def after : Text := k.behind.flatMap (·.2.text)

/-- What renaming makes of the text in front of the mark. -/
def renamedBefore (renames : List (Text × Text)) : Text := k.front.flatMap (·.2.rename renames)

/-- What renaming makes of the text behind the mark. -/
def renamedAfter (renames : List (Text × Text)) : Text := k.behind.flatMap (·.2.rename renames)

/-- The mark is cut off between the two texts, and it is so wherever the lexer sees the same ahead
of the text in front of it. -/
theorem exists_lexed : ∃ depth, body = k.before ++ k.mark :: k.after ∧
    Lexed next ⟨.code depth, k.outer⟩ (k.mark :: k.before.reverse) k.after k.behind ∧
    (∀ before' t' tokens', Lexed next ⟨.code depth, k.outer⟩ (k.mark :: before') t' tokens' →
      Lexed next ⟨.code k.depth, k.outer⟩ before' (k.mark :: t')
        ((⟨.code k.depth, k.outer⟩, fixed [k.mark]) :: tokens')) ∧
    ∀ t' tokens', SeesAhead (k.mark :: k.after) t' →
      Lexed next ⟨.code k.depth, k.outer⟩ k.before.reverse t' tokens' →
      Lexed next .top [] (k.before ++ t') (k.front ++ tokens') := by
  have hbody := lexed_lexFrom isCutOff_next .top [] body
  rw [k.lexFrom_eq] at hbody
  obtain ⟨q, rest, hsplit, hrest, hexchange⟩ := hbody.exists_exchange
  obtain ⟨after, depth, rfl, rfl, hbehind, hmark⟩ := hrest.exists_mark k.isSpacedMark_mark
  obtain rfl : k.after = after := hbehind.flatMap_text
  rw [List.append_nil] at hbehind hexchange
  exact ⟨depth, hsplit, hbehind, hmark, hexchange⟩

/-- What renaming makes of the body. -/
theorem renameReferences_eq (renames : List (Text × Text)) :
    renameReferences renames body =
      k.renamedBefore renames ++ k.mark :: k.renamedAfter renames := by
  have hbody := lexed_lexFrom isCutOff_next .top [] body
  rw [hbody.renameReferences_eq, k.lexFrom_eq, List.flatMap_append, List.flatMap_cons]
  rfl

section

variable {ws : Text} (hws : ∀ c ∈ ws, isAsciiBlank c) (hne : ws ≠ [])

include hws hne

/-- No dots are counted in front of blanks. -/
theorem dotCount_blanks (t : Text) : dotCount (ws.reverse ++ t) = 0 := by
  obtain ⟨c, u, hu⟩ := List.exists_cons_of_ne_nil (mt List.reverse_eq_nil_iff.mp hne)
  have hc : isAsciiBlank c := hws c (List.mem_reverse.mp (hu ▸ List.mem_cons_self))
  have hdot : c ≠ '.' := by
    rintro rfl
    exact absurd hc (by decide)
  simp [hu, dotCount, hdot]

/-- Blanks in front of the mark change nothing else. -/
theorem lexed_blanks_before :
    Lexed next .top [] (k.before ++ (ws ++ k.mark :: k.after))
      (k.front ++ (blankTokens ⟨.code k.depth, k.outer⟩ ws ++
        (⟨.code k.depth, k.outer⟩, fixed [k.mark]) :: k.behind)) := by
  obtain ⟨depth, -, hbehind, hmark, hexchange⟩ := k.exists_lexed
  refine hexchange _ _ (.of_blanks hws k.isSpacedMark_mark) (lexed_blankTokens hws (hmark _ _ _ ?_))
  refine hbehind.of_seesBehind (.of_dotCount ?_ ?_)
  · intro n hn
    by_cases hdot : k.mark = '.'
    · have hspread : dotCount k.before.reverse + dotCount k.after < 2 := k.noSpread hdot
      rw [hdot, dotCount_dot, dotCount_dot, dotCount_blanks hws hne]
      simp only [isPropertyCount]
      grind
    · simp [dotCount, hdot]
  · have hblank := not_isBlank_of_isSpacedMark k.isSpacedMark_mark
    simp [Text.trimStart, hblank]

omit hne in
/-- Through blanks, the mark is the first sign that is seen behind. -/
theorem head?_trimStart_blanks : (Text.trimStart (ws.reverse ++ k.mark :: k.before.reverse)).head? =
    (Text.trimStart (k.mark :: k.before.reverse)).head? := by
  have hreverse : ∀ c ∈ ws.reverse, isAsciiBlank c := fun c hc => hws c (List.mem_reverse.mp hc)
  have hnone : ∀ c ∈ ([] : Text), isAsciiBlank c := nofun
  rw [trimStart_blanks hreverse k.isSpacedMark_mark]
  exact congrArg _ (trimStart_blanks hnone k.isSpacedMark_mark).symm

/-- Past the first character behind a dot, the dot is seen as well through blanks. -/
theorem seesBehind_dot (hdot : k.mark = '.') {c : Char} {t : Text} (ht : k.after = c :: t) :
    SeesBehind (c :: k.mark :: k.before.reverse) (c :: (ws.reverse ++ k.mark :: k.before.reverse))
      t := by
  have hspread : dotCount k.before.reverse + dotCount k.after < 2 := k.noSpread hdot
  have hsign := k.head?_trimStart_blanks hws
  refine .of_dotCount ?_ ?_
  · intro n hn
    by_cases hc : c = '.'
    · rw [ht, hc, dotCount_dot] at hspread
      rw [hc, hdot, dotCount_dot, dotCount_dot, dotCount_dot, dotCount_blanks hws hne]
      simp only [isPropertyCount]
      grind
    · simp [dotCount, hc]
  · by_cases hc : Text.isBlank c
    · simpa [Text.trimStart, hc] using hsign
    · simp [Text.trimStart, hc]

/-- Blanks behind the mark change nothing else, unless a word follows right behind a dot. -/
theorem lexed_blanks_behind (h : k.mark = '.' → ¬ k.after.head?.any startsWord) :
    ∃ place, Lexed next .top [] (k.before ++ k.mark :: (ws ++ k.after))
      (k.front ++ (⟨.code k.depth, k.outer⟩, fixed [k.mark]) ::
        (blankTokens place ws ++ k.behind)) := by
  obtain ⟨depth, -, hbehind, hmark, hexchange⟩ := k.exists_lexed
  refine ⟨_, hexchange _ _ (.behind_mark k.isSpacedMark_mark)
    (hmark _ _ _ (lexed_blankTokens hws ?_))⟩
  by_cases hdot : k.mark = '.'
  · refine hbehind.behind_of_not_word (h hdot) ?_
    intro c t ht
    exact k.seesBehind_dot hws hne hdot ht
  · refine hbehind.of_seesBehind (.of_dotCount ?_ (k.head?_trimStart_blanks hws))
    intro n hn
    rw [dotCount_blanks hws hne]
    simp [dotCount, hdot]

/-- Blanks between a dot and a word make the word a variable. -/
theorem lexed_blanks_behind_dot (hdot : k.mark = '.') (hword : k.after.head?.any startsWord) :
    ∃ place behind, k.behind = (place, fixed (k.after.takeWhile isWordPart)) :: behind ∧
      Lexed next .top [] (k.before ++ k.mark :: (ws ++ k.after))
        (k.front ++ (⟨.code k.depth, k.outer⟩, fixed [k.mark]) :: (blankTokens place ws ++
          (place, reference (k.after.takeWhile isWordPart)) :: behind)) := by
  obtain ⟨depth, -, hbehind, hmark, hexchange⟩ := k.exists_lexed
  obtain ⟨c, t, ht, hc⟩ : ∃ c t, k.after = c :: t ∧ startsWord c := by
    cases ht : k.after with
    | nil =>
        rw [ht] at hword
        cases hword
    | cons c t =>
        rw [ht] at hword
        exact ⟨c, t, rfl, hword⟩
  rw [ht] at hbehind
  obtain ⟨word, rest, behind, -, hspelled, htokens, hany⟩ := hbehind.exists_word hc
  have hspaced := hany _ (k.seesBehind_dot hws hne hdot ht)
  -- Right behind the dot the word is a property, as the dot is no part of a spread.
  have hproperty : ofWord (k.mark :: k.before.reverse) word rest = fixed word := by
    have hspread : dotCount k.before.reverse + dotCount k.after < 2 := k.noSpread hdot
    have hfollows : followsDot (k.mark :: k.before.reverse) = true := by
      rw [hdot, followsDot_eq]
      show isPropertyCount (dotCount ('.' :: k.before.reverse)) = true
      rw [dotCount_dot]
      simp only [isPropertyCount]
      grind
    rw [ofWord, hfollows]
    rfl
  have hreference :
      ofWord (ws.reverse ++ k.mark :: k.before.reverse) word rest = reference word := by
    have hfollows : followsDot (ws.reverse ++ k.mark :: k.before.reverse) = false := by
      rw [followsDot_eq]
      show isPropertyCount (dotCount (ws.reverse ++ k.mark :: k.before.reverse)) = false
      rw [dotCount_blanks hws hne]
      rfl
    have hkey : isKey (ws.reverse ++ k.mark :: k.before.reverse) rest = false := by
      rw [isKey_eq, k.head?_trimStart_blanks hws, hdot]
      exact Bool.and_false _
    rw [ofWord, hfollows, hkey]
    rfl
  rw [hreference] at hspaced
  rw [ht, hspelled]
  refine ⟨_, behind, by rw [htokens, hproperty], ?_⟩
  exact hexchange _ _ (.behind_mark k.isSpacedMark_mark)
    (hmark _ _ _ (lexed_blankTokens hws hspaced))

end

end CodeMark

/-- What is no identifier is not replaced. -/
theorem substitute_of_not_isIdentifier {renames : List (Text × Text)}
    (hrenames : ∀ pair ∈ renames, Text.isIdentifier pair.1 ∧ Text.isIdentifier pair.2) {name : Text}
    (hname : ¬ Text.isIdentifier name) : substitute renames name = name :=
  (substitute_cases hrenames name).resolve_right fun h => hname h.1

/-- If a text does not begin with a word, no name is replaced there. -/
theorem substitute_takeWhile_of_not_word {renames : List (Text × Text)}
    (hrenames : ∀ pair ∈ renames, Text.isIdentifier pair.1 ∧ Text.isIdentifier pair.2) {t : Text}
    (ht : ¬ t.head?.any startsWord) :
    substitute renames (t.takeWhile isWordPart) = t.takeWhile isWordPart := by
  refine substitute_of_not_isIdentifier hrenames fun hname => ht ?_
  cases t with
  | nil => cases hname
  | cons c t =>
      by_cases hc : isWordPart c
      · rw [List.takeWhile_cons_of_pos hc] at hname
        have hdigit := Text.not_isDigit_of_isIdentifier hname
        simp [startsWord, hc, hdigit]
      · rw [List.takeWhile_cons_of_neg hc] at hname
        cases hname

/-- Blanks in front of a mark of code commute with renaming, and so do blanks behind it, unless they
part a dot from a name that is to be replaced: that is kept as a property right behind the dot only.
-/
theorem renameReferences_insertBlanks {renames : List (Text × Text)}
    (hrenames : ∀ pair ∈ renames, Text.isIdentifier pair.1 ∧ Text.isIdentifier pair.2) {body : Text}
    (k : CodeMark body) {ws : Text} (hws : ∀ c ∈ ws, isAsciiBlank c) (hne : ws ≠ []) :
    body = k.before ++ k.mark :: k.after ∧
    renameReferences renames body =
      k.renamedBefore renames ++ k.mark :: k.renamedAfter renames ∧
    renameReferences renames (k.before ++ (ws ++ k.mark :: k.after)) =
      k.renamedBefore renames ++ (ws ++ k.mark :: k.renamedAfter renames) ∧
    (renameReferences renames (k.before ++ k.mark :: (ws ++ k.after)) =
        k.renamedBefore renames ++ k.mark :: (ws ++ k.renamedAfter renames) ↔
      (k.mark = '.' →
        substitute renames (k.after.takeWhile isWordPart) = k.after.takeWhile isWordPart)) := by
  obtain ⟨depth, hbody, -⟩ := k.exists_lexed
  refine ⟨hbody, k.renameReferences_eq renames, ?_, ?_⟩
  · rw [(k.lexed_blanks_before hws hne).renameReferences_eq]
    simp only [List.flatMap_append, List.flatMap_cons, flatMap_rename_blankTokens]
    rfl
  · by_cases hword : k.mark = '.' ∧ k.after.head?.any startsWord
    · obtain ⟨hdot, hword⟩ := hword
      obtain ⟨place, behind, hbehind, hlexed⟩ := k.lexed_blanks_behind_dot hws hne hdot hword
      generalize k.after.takeWhile isWordPart = word at hbehind hlexed ⊢
      have hafter : k.renamedAfter renames = word ++ behind.flatMap (·.2.rename renames) := by
        rw [CodeMark.renamedAfter, hbehind]
        rfl
      have hspaced : renameReferences renames (k.before ++ k.mark :: (ws ++ k.after)) =
          k.renamedBefore renames ++ k.mark ::
            (ws ++ (substitute renames word ++ behind.flatMap (·.2.rename renames))) := by
        rw [hlexed.renameReferences_eq]
        simp only [List.flatMap_append, List.flatMap_cons, flatMap_rename_blankTokens]
        rfl
      rw [hspaced, hafter]
      simp [hdot]
    · have hkept : k.mark = '.' →
          substitute renames (k.after.takeWhile isWordPart) = k.after.takeWhile isWordPart :=
        fun hdot => substitute_takeWhile_of_not_word hrenames fun h => hword ⟨hdot, h⟩
      obtain ⟨place, hlexed⟩ :=
        k.lexed_blanks_behind hws hne fun hdot h => hword ⟨hdot, h⟩
      refine iff_of_true ?_ hkept
      rw [hlexed.renameReferences_eq]
      simp only [List.flatMap_append, List.flatMap_cons, flatMap_rename_blankTokens]
      rfl

/-- A property stays one behind blanks in front of its dot, and is replaced behind blanks after it.
-/
theorem spacedProperty_renamed :
    renameReferences [("n".toList, "v".toList)] "el.n = n;".toList = "el.n = v;".toList ∧
    renameReferences [("n".toList, "v".toList)] "el .n = n;".toList = "el .n = v;".toList ∧
    renameReferences [("n".toList, "v".toList)] "el. n = n;".toList ≠ "el. n = v;".toList ∧
    renameReferences [("n".toList, "v".toList)] "el. n = n;".toList = "el. v = v;".toList := by
  have hrenames : ∀ pair ∈ [("n".toList, "v".toList)],
      Text.isIdentifier pair.1 ∧ Text.isIdentifier pair.2 := by decide
  have hws : ∀ c ∈ [' '], isAsciiBlank c := List.forall_mem_singleton.mpr rfl
  let k : CodeMark "el.n = n;".toList :=
    { front := [(.top, .reference "el".toList)]
      mark := '.'
      behind := [(.top, .fixed ['n']), (.top, .fixed [' ']), (.top, .fixed ['=']),
        (.top, .fixed [' ']), (.top, .reference ['n']), (.top, .fixed [';'])]
      depth := 0
      outer := []
      isSpacedMark_mark := rfl
      lexFrom_eq := by decide
      noSpread := by decide }
  obtain ⟨-, hbody, hbefore, hbehind⟩ :=
    renameReferences_insertBlanks hrenames k hws (List.cons_ne_nil ' ' [])
  refine ⟨hbody, hbefore, ?_, by decide⟩
  intro h
  exact absurd (hbehind.mp h rfl) (by decide)

end CodeToken

end ElementScript
