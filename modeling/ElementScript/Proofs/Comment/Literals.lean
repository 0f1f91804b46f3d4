import ElementScript.Proofs.Comment
import ElementScript.Proofs.Scan.Nesting

/-!
# Comments and literals

The lexer behind renaming knows of no comments, so it is taught them: in code, a comment is a token
(`nextOrComment`). Between two tokens, the comment scan stands where the flat scanner would, save
that it may hold back a slash or be at the end of a comment (`CommentMode.Awaits`), and one token
leaves it in step with the lexer, unless it is a back quote inside a substitution
(`StripsTokens.split_token`). So all literals are kept up to the first such back quote, and the text
behind it is stripped like a script of its own (`literals_kept`).
-/

namespace ElementScript

/-! ### Comments as tokens -/

/-- The text of a literal, and no code. -/
def CodeContext.isLiteral : CodeContext → Bool
  | code _ => false
  | literal _ => true

namespace CodeToken

/-- The rest of a block comment, behind the mark that opens it. -/
def blockCommentTail : Text → Text
  | [] => []
  | c :: t => if c = '*' ∧ t.head? = some '/' then ['*', '/'] else c :: blockCommentTail t

/-- The comment that the character `c` begins before the text `t`. -/
def comment? (c : Char) (t : Text) : Option Text :=
  match c, t with
  | '/', '/' :: t => some ('/' :: '/' :: t.takeWhile (· != '\n'))
  | '/', '*' :: t => some ('/' :: '*' :: blockCommentTail t)
  | _, _ => none

/-- The token that begins with the character `c`, where comments are tokens of code. -/
def nextOrComment : Cutter := fun p before c t =>
  match p.inner, comment? c t with
  | .code _, some comment => (fixed comment, p)
  | _, _ => next p before c t

/-- The tokens of a script, with their places. -/
def lexScript (script : Text) : List (CodePlace × CodeToken) :=
  lexFrom nextOrComment .top 0 [] script

/-- What stands in literals, with the quotes that close them. -/
def literalText (tokens : List (CodePlace × CodeToken)) : Text :=
  (tokens.filter fun x => x.1.inner.isLiteral).flatMap (·.2.text)

theorem literalText_append (tokens tokens' : List (CodePlace × CodeToken)) :
    literalText (tokens ++ tokens') = literalText tokens ++ literalText tokens' := by
  simp [literalText]

theorem blockCommentTail_prefix (t : Text) : blockCommentTail t <+: t := by
  induction t with
  | nil => exact List.prefix_rfl
  | cons c t ih =>
      unfold blockCommentTail
      split
      · rename_i hclose
        obtain ⟨rfl, hslash⟩ := hclose
        obtain ⟨t, rfl⟩ := List.head?_eq_some_iff.mp hslash
        exact ⟨t, rfl⟩
      · exact List.cons_prefix_cons.mpr ⟨rfl, ih⟩

theorem comment?_eq_some {c : Char} {t comment : Text} (h : comment? c t = some comment) :
    ∃ w, comment = c :: w ∧ w <+: t := by
  unfold comment? at h
  split at h
  · cases h
    exact ⟨_, rfl, List.cons_prefix_cons.mpr ⟨rfl, List.takeWhile_prefix _⟩⟩
  · cases h
    exact ⟨_, rfl, List.cons_prefix_cons.mpr ⟨rfl, blockCommentTail_prefix _⟩⟩
  · cases h

/-- A comment that is cut off a text goes up to the end of its line, or up to its closing mark. -/
theorem comment?_append {c : Char} {w rest : Text} (h : comment? c (w ++ rest) = some (c :: w)) :
    (∃ v, c = '/' ∧ w = '/' :: v ∧ (v ++ rest).takeWhile (· != '\n') = v) ∨
      ∃ v, c = '/' ∧ w = '*' :: v ∧ blockCommentTail (v ++ rest) = v := by
  unfold comment? at h
  split at h
  · rename_i t hline
    cases h
    exact Or.inl ⟨_, rfl, rfl, congrArg (List.takeWhile _) (List.cons.inj hline).2⟩
  · rename_i t hblock
    cases h
    exact Or.inr ⟨_, rfl, rfl, congrArg blockCommentTail (List.cons.inj hblock).2⟩
  · cases h

/-- Neither a slash nor a star is behind a slash that begins no comment. -/
theorem head?_ne_of_comment? {t : Text} (h : comment? '/' t = none) :
    t.head? ≠ some '/' ∧ t.head? ≠ some '*' := by
  constructor
  · intro hhead
    obtain ⟨t, rfl⟩ := List.head?_eq_some_iff.mp hhead
    cases h
  · intro hhead
    obtain ⟨t, rfl⟩ := List.head?_eq_some_iff.mp hhead
    cases h

theorem isCutOff_nextOrComment (p : CodePlace) (before : Text) (c : Char) (t : Text) :
    (nextOrComment p before c t).1.IsCutOff c t := by
  unfold nextOrComment
  split
  · rename_i comment _ hcomment
    obtain ⟨w, rfl, hw⟩ := comment?_eq_some hcomment
    exact isCutOff_fixed hw
  · exact isCutOff_next ..

/-- A token is a comment in code, or one that the lexer knows already. -/
theorem nextOrComment_eq {p q : CodePlace} {before w rest : Text} {c : Char} {token : CodeToken}
    (h : nextOrComment p before c (w ++ rest) = (token, q)) (htext : token.text = c :: w) :
    (p.inner.isLiteral = false ∧ comment? c (w ++ rest) = some (c :: w) ∧ q = p) ∨
      ((p.inner.isLiteral = false → comment? c (w ++ rest) = none) ∧
        IsNext before p (c :: w) rest token q) := by
  obtain ⟨inner, outer⟩ := p
  unfold nextOrComment at h
  cases inner with
  | literal quote => exact Or.inr ⟨nofun, next_eq_iff.mp ⟨h, htext⟩⟩
  | code depth =>
      cases hcomment : comment? c (w ++ rest) with
      | none =>
          rw [hcomment] at h
          exact Or.inr ⟨fun _ => rfl, next_eq_iff.mp ⟨h, htext⟩⟩
      | some comment =>
          rw [hcomment] at h
          cases h
          cases htext
          exact Or.inl ⟨rfl, rfl, rfl⟩

end CodeToken

open CodeToken

/-! ### The comment scan -/

/-- What the mode between two tokens says about the text to come: a slash that is held back begins
no comment, and comments have been read up to their end. -/
def CommentMode.Awaits (t : Text) : CommentMode → Prop
  | .script _ => True
  | .slash => t.head? ≠ some '/' ∧ t.head? ≠ some '*'
  | .line => ∀ c, t.head? = some c → c = '\n'
  | .block _ _ => t = []

namespace CommentState

variable {quotes : QuoteState} {mode : CommentMode} {edits : List Edit} {c : Char} {t u : Text}

/-- Where no slash stands in code, all is kept. -/
theorem run_script (h : ∀ v c, v ++ [c] <+: u → (quotes.run v).inCode → c ≠ '/') :
    (⟨.script quotes, edits⟩ : CommentState).run u =
      ⟨.script (quotes.run u), (Edit.keepAll u).reverse ++ edits⟩ := by
  induction u generalizing quotes edits with
  | nil => rfl
  | cons c u ih =>
      have hc : ¬ (quotes.inCode && c == '/') = true := by
        rw [Bool.and_eq_true, beq_iff_eq]
        intro hspec
        exact h [] c (List.cons_prefix_cons.mpr ⟨rfl, List.nil_prefix⟩) hspec.1 hspec.2
      have hstep : (⟨.script quotes, edits⟩ : CommentState).step c =
          ⟨.script (quotes.step c), .keep c :: edits⟩ := by
        rw [step]
        exact if_neg hc
      have htail : ∀ v d, v ++ [d] <+: u → ((quotes.step c).run v).inCode → d ≠ '/' := by
        intro v d hv
        exact h (c :: v) d (List.cons_prefix_cons.mpr ⟨rfl, hv⟩)
      rw [run_cons, hstep, ih htail]
      simp [Edit.keepAll]

/-- A literal is kept as long as it is not closed. -/
theorem run_literal {quote : Char} (hquote : quote ∉ u) (hslash : '\\' ∉ u) :
    (⟨.script ⟨some quote, false⟩, edits⟩ : CommentState).run u =
      ⟨.script ⟨some quote, false⟩, (Edit.keepAll u).reverse ++ edits⟩ := by
  have hliteral {v : Text} (hv : v <+: u) :
      (⟨some quote, false⟩ : QuoteState).run v = ⟨some quote, false⟩ := by
    have hrun : (BraceState.mk ⟨some quote, false⟩ 0).run v = ⟨⟨some quote, false⟩, 0⟩ :=
      BraceState.run_of_literal (mt (hv.subset ·) hquote) (mt (hv.subset ·) hslash)
    rw [← BraceState.run_toQuoteState ⟨⟨some quote, false⟩, 0⟩, hrun]
  rw [run_script, hliteral List.prefix_rfl]
  intro v c hv hcode
  rw [hliteral ((List.prefix_append v [c]).trans hv)] at hcode
  cases hcode

/-- What was held back between two tokens does not matter for the next one. -/
theorem step_of_awaits (h : mode.Awaits (c :: t)) :
    ∃ written, (⟨mode, edits⟩ : CommentState).step c =
      (⟨.script mode.quotes, written ++ edits⟩ : CommentState).step c := by
  cases mode with
  | script quotes => exact ⟨[], rfl⟩
  | slash =>
      obtain ⟨hslash, hstar⟩ := h
      have hc : c ≠ '/' := fun heq => hslash (congrArg some heq)
      have hc' : c ≠ '*' := fun heq => hstar (congrArg some heq)
      refine ⟨[.keep '/'], ?_⟩
      simp [step, CommentMode.quotes, hc, hc']
  | line =>
      obtain rfl : c = '\n' := h c rfl
      exact ⟨[], rfl⟩
  | block seen star => cases h

theorem mode_run_line (h : ∀ d ∈ t, (d != '\n') = true) :
    ((⟨.line, edits⟩ : CommentState).run t).mode = .line := by
  induction t generalizing edits with
  | nil => rfl
  | cons c t ih =>
      obtain ⟨hc, ht⟩ := List.forall_mem_cons.mp h
      have hstep : (⟨.line, edits⟩ : CommentState).step c = ⟨.line, .replace [c] [] :: edits⟩ := by
        rw [step]
        exact if_neg (bne_iff_ne.mp hc)
      rw [run_cons, hstep, ih ht]

/-- A block comment is read up to its end, or to the end of the script. -/
theorem mode_run_block {seen v rest : Text} {star : Bool} (h : blockCommentTail (v ++ rest) = v)
    (hstar : star → (v ++ rest).head? ≠ some '/') :
    ((⟨.block seen star, edits⟩ : CommentState).run v).mode = .script .code ∨
      rest = [] ∧ ∃ seen' star',
        ((⟨.block seen star, edits⟩ : CommentState).run v).mode = .block seen' star' := by
  induction v generalizing seen star edits with
  | nil =>
      cases rest with
      | nil => exact Or.inr ⟨rfl, seen, star, rfl⟩
      | cons c rest =>
          rw [List.nil_append, blockCommentTail] at h
          split at h <;> cases h
  | cons c v ih =>
      rw [List.cons_append, blockCommentTail] at h
      by_cases hclose : c = '*' ∧ (v ++ rest).head? = some '/'
      · rw [if_pos hclose] at h
        cases h
        have hread : (⟨.block seen star, edits⟩ : CommentState).step '*' =
            ⟨.block ('*' :: seen) true, edits⟩ := by
          cases star <;> rfl
        rw [run_cons, hread]
        exact Or.inl rfl
      · rw [if_neg hclose] at h
        have hopen : ¬ (star && c == '/') = true := by
          rw [Bool.and_eq_true, beq_iff_eq]
          intro hspec
          exact hstar hspec.1 (congrArg some hspec.2)
        have hread : (⟨.block seen star, edits⟩ : CommentState).step c =
            ⟨.block (c :: seen) (c == '*'), edits⟩ := by
          rw [step]
          exact if_neg hopen
        rw [run_cons, hread]
        refine ih (List.cons.inj h).2 ?_
        intro hc hslash
        exact hclose ⟨beq_iff_eq.mp hc, hslash⟩

/-- A comment that begins in code is read up to its end. -/
theorem mode_run_comment {w rest : Text} (h : comment? c (w ++ rest) = some (c :: w))
    (edits : List Edit) :
    ((⟨.script .code, edits⟩ : CommentState).run (c :: w)).mode.quotes = .code ∧
      ((⟨.script .code, edits⟩ : CommentState).run (c :: w)).mode.Awaits rest := by
  rcases comment?_append h with ⟨v, rfl, rfl, hv⟩ | ⟨v, rfl, rfl, hv⟩
  · obtain ⟨hparts, hrest⟩ := takeWhile_append_eq_left.mp hv
    have hmode : ((⟨.script .code, edits⟩ : CommentState).run ('/' :: '/' :: v)).mode = .line :=
      mode_run_line hparts
    rw [hmode]
    refine ⟨rfl, ?_⟩
    intro d hd
    rw [hd] at hrest
    simpa using hrest
  · have hmode : ((⟨.script .code, edits⟩ : CommentState).run ('/' :: '*' :: v)).mode =
          .script .code ∨ rest = [] ∧ ∃ seen star,
        ((⟨.script .code, edits⟩ : CommentState).run ('/' :: '*' :: v)).mode = .block seen star :=
      mode_run_block hv nofun
    rcases hmode with hmode | ⟨rfl, seen, star, hmode⟩
    · rw [hmode]
      exact ⟨rfl, trivial⟩
    · rw [hmode]
      exact ⟨rfl, rfl⟩

end CommentState

/-! ### Keeping step -/

/-- The mode of the comment scan is in step with the lexer at a place in front of a text. -/
def CommentMode.InStepAt (p : CodePlace) (t : Text) (mode : CommentMode) : Prop :=
  mode.Awaits t ∧ ∃ depth, InStep p mode.quotes depth

/-- In a literal, the code around it is among the contexts. -/
theorem InStep.outer_ne_nil {p : CodePlace} {quotes : QuoteState} {depth : Nat}
    (h : InStep p quotes depth) (hliteral : p.inner.isLiteral) : p.outer ≠ [] := by
  cases h with
  | code => cases hliteral
  | literal => exact List.cons_ne_nil _ _
  | substitution => exact List.append_ne_nil_of_right_ne_nil _ (List.cons_ne_nil _ _)

/-- Where a literal is open, nothing is held back. -/
theorem InStep.eq_script {p : CodePlace} {mode : CommentMode} {depth : Nat}
    (h : InStep p mode.quotes depth) (houter : p.outer ≠ []) : mode = .script mode.quotes := by
  cases mode with
  | script quotes => rfl
  | _ => exact absurd (h.inCode_iff.mp rfl) houter

/-- The scan keeps a token, unless it is a slash in code. -/
theorem CodeToken.IsNext.run_script {p q : CodePlace} {before u rest : Text} {token : CodeToken}
    {quotes : QuoteState} {edits : List Edit} (h : IsNext before p u rest token q)
    (hslash : '\\' ∉ u) (hkept : ¬ (quotes.inCode ∧ '/' ∈ u)) :
    (⟨.script quotes, edits⟩ : CommentState).run u =
      ⟨.script (quotes.run u), (Edit.keepAll u).reverse ++ edits⟩ := by
  refine CommentState.run_script ?_
  intro v c hv hcode heq
  subst heq
  have hmem : '/' ∈ u := hv.subset List.mem_append_cons_self
  have hu : u = ['/'] := h.eq_singleton hslash hmem (by decide) (by decide)
  -- The slash is the whole token, so that nothing of it was read before.
  have hlength := hv.length_le
  rw [hu, List.length_append, List.length_singleton] at hlength
  obtain rfl : v = [] := List.length_eq_zero_iff.mp (by omega)
  exact hkept ⟨hcode, hmem⟩

/-- One token leaves the lexer and the comment scan in step, unless it is a back quote in a
substitution. -/
theorem InStep.inStepAt_run {p q : CodePlace} {quotes : QuoteState} {depth : Nat}
    {before w rest : Text} {c : Char} {token : CodeToken} (h : InStep p quotes depth)
    (hnext : nextOrComment p before c (w ++ rest) = (token, q)) (htext : token.text = c :: w)
    (hslash : '\\' ∉ c :: w) (hunnested : ¬ IsNestedQuote (p, token)) (edits : List Edit) :
    ((⟨.script quotes, edits⟩ : CommentState).run (c :: w)).mode.InStepAt q rest := by
  have hkeep (hisNext : IsNext before p (c :: w) rest token q)
      (hkept : ¬ (quotes.inCode ∧ '/' ∈ c :: w)) :
      ((⟨.script quotes, edits⟩ : CommentState).run (c :: w)).mode.InStepAt q rest := by
    obtain ⟨depth', hq, -⟩ := h.inStep_run hisNext hslash hunnested
    rw [hisNext.run_script hslash hkept]
    exact ⟨trivial, depth', hq⟩
  cases h with
  | code =>
      rcases nextOrComment_eq hnext htext with ⟨-, hcomment, rfl⟩ | ⟨hcomment, hisNext⟩
      · obtain ⟨hquotes, hawaits⟩ := CommentState.mode_run_comment hcomment edits
        refine ⟨hawaits, depth, ?_⟩
        rw [hquotes]
        exact .code
      · by_cases hmem : '/' ∈ c :: w
        · -- The slash is held back, and no comment begins with it.
          have hu := hisNext.eq_singleton hslash hmem (by decide) (by decide)
          cases hu
          obtain ⟨depth', hq, -⟩ := InStep.code.inStep_run hisNext hslash hunnested
          exact ⟨head?_ne_of_comment? (hcomment rfl), depth', hq⟩
        · exact hkeep hisNext fun hspec => hmem hspec.2
  | literal =>
      rcases nextOrComment_eq hnext htext with ⟨hcode, -⟩ | ⟨-, hisNext⟩
      · cases hcode
      · refine hkeep hisNext ?_
        intro hspec
        cases hspec.1
  | @substitution inner outer =>
      have hquote : '\x60' ∉ c :: w := by
        intro hmem
        exact hunnested ⟨inSubstitution_append, htext ▸ hmem⟩
      rw [CommentState.run_literal hquote hslash]
      refine ⟨trivial, depth, ?_⟩
      rcases nextOrComment_eq hnext htext with ⟨-, -, rfl⟩ | ⟨-, hisNext⟩
      · exact .substitution
      · exact .of_outer_eq rfl hisNext

/-! ### Runs -/

/-- The comment scan is in step with the lexer, which is about to cut the text into the tokens. -/
inductive StripsTokens : CommentState → Text → List (CodePlace × CodeToken) → Prop
  | intro {p : CodePlace} {mode : CommentMode} {edits : List Edit} {before t : Text}
      {tokens : List (CodePlace × CodeToken)} (hmode : mode.InStepAt p t)
      (hlexed : Lexed nextOrComment p before t tokens) : StripsTokens ⟨mode, edits⟩ t tokens

namespace StripsTokens

open CommentState

variable {s : CommentState} {t : Text} {x : CodePlace × CodeToken}
  {front tokens : List (CodePlace × CodeToken)}

/-- Every script is about to be cut, from its start on. -/
theorem of_lexScript (script : Text) : StripsTokens .start script (lexScript script) :=
  .intro ⟨trivial, 0, .code⟩ (lexed_lexFrom isCutOff_nextOrComment ..)

theorem eq_nil (h : StripsTokens s t []) : t = [] := by
  obtain ⟨-, hlexed⟩ := h
  cases hlexed
  rfl

/-- One token, which does not stand for a nested template. -/
theorem split_token (h : StripsTokens s t (x :: tokens)) (hslash : '\\' ∉ t)
    (hunnested : ¬ IsNestedQuote x) :
    ∃ rest, t = x.2.text ++ rest ∧ StripsTokens (s.run x.2.text) rest tokens := by
  obtain ⟨⟨hawaits, depth, hstep⟩, hlexed⟩ := h
  cases hlexed with
  | @token p q before w rest c token tokens hnext htext behind =>
      have hslash' : '\\' ∉ c :: w := fun hmem => hslash (List.mem_append_left rest hmem)
      refine ⟨rest, ?_, ?_⟩
      · show c :: (w ++ rest) = token.text ++ rest
        rw [htext, List.cons_append]
      · obtain ⟨written, hresume⟩ := step_of_awaits hawaits
        show StripsTokens (CommentState.run _ token.text) rest tokens
        rw [htext, run_cons, hresume, ← run_cons]
        exact .intro (hstep.inStepAt_run hnext htext hslash' hunnested _) behind

/-- A token of a literal is kept. -/
theorem edits_of_isLiteral (h : StripsTokens s t (x :: tokens)) (hslash : '\\' ∉ t)
    (hliteral : x.1.inner.isLiteral) :
    s.pending = [] ∧ (s.run x.2.text).edits = (Edit.keepAll x.2.text).reverse ++ s.edits := by
  obtain ⟨⟨hawaits, depth, hstep⟩, hlexed⟩ := h
  cases hlexed with
  | @token p q before w rest c token tokens hnext htext behind =>
      have hslash' : '\\' ∉ c :: w := fun hmem => hslash (List.mem_append_left rest hmem)
      have houter := hstep.outer_ne_nil hliteral
      have hmode := hstep.eq_script houter
      rw [hmode]
      refine ⟨rfl, ?_⟩
      show (CommentState.run _ token.text).edits = _
      rcases nextOrComment_eq hnext htext with ⟨hcode, -⟩ | ⟨-, hisNext⟩
      · cases hcode.symm.trans hliteral
      · rw [htext, hisNext.run_script hslash' fun hspec => houter (hstep.inCode_iff.mp hspec.1)]

/-- Behind a back quote in a substitution, the scan takes what is text for code. -/
theorem run_nestedQuote {v w : Text} (h : StripsTokens s t (x :: tokens)) (hslash : '\\' ∉ t)
    (hx : x.1.InSubstitution) (htext : x.2.text = v ++ '\x60' :: w) (hv : '\x60' ∉ v) :
    s.pending = [] ∧ s.run (v ++ ['\x60']) =
      ⟨.script .code, (Edit.keepAll (v ++ ['\x60'])).reverse ++ s.edits⟩ := by
  obtain ⟨⟨hawaits, depth, hstep⟩, hlexed⟩ := h
  cases hlexed with
  | @token p q before w' rest c token tokens hnext htext' behind =>
      have hmode := hstep.eq_script (List.ne_nil_of_mem hx)
      obtain ⟨hquotes, -⟩ := hstep.eq_of_inSubstitution hx
      have hslash' : '\\' ∉ v := by
        intro hmem
        refine hslash ?_
        show '\\' ∈ (c :: w') ++ rest
        rw [← htext', htext]
        simp [hmem]
      rw [hmode, hquotes]
      refine ⟨rfl, ?_⟩
      rw [run_append, run_literal hv hslash', Edit.keepAll_append, List.reverse_append]
      rfl

/-- The scan writes what is in a token of a literal. -/
theorem literalText_of_run (h : StripsTokens s t (x :: tokens)) (hslash : '\\' ∉ t) :
    ∃ written, (s.run x.2.text).edits = written ++ s.edits ∧
      (literalText [x]).Sublist (Edit.output written.reverse) := by
  by_cases hliteral : x.1.inner.isLiteral
  · refine ⟨_, (h.edits_of_isLiteral hslash hliteral).2, ?_⟩
    rw [List.reverse_reverse, Edit.output_keepAll]
    simp [literalText, hliteral]
  · refine ⟨_, edits_run s x.2.text, ?_⟩
    simp [literalText, hliteral]

/-- A run of tokens. -/
theorem split_tokens (h : StripsTokens s t (front ++ tokens)) (hslash : '\\' ∉ t)
    (hunnested : Unnested front) :
    ∃ rest written, t = front.flatMap (·.2.text) ++ rest ∧
      StripsTokens (s.run (front.flatMap (·.2.text))) rest tokens ∧
      (s.run (front.flatMap (·.2.text))).edits = written ++ s.edits ∧
      (literalText front).Sublist (Edit.output written.reverse) := by
  induction front generalizing s t with
  | nil => exact ⟨t, [], rfl, h, rfl, List.Sublist.slnil⟩
  | cons x front ih =>
      obtain ⟨hx, hfront⟩ := List.forall_mem_cons.mp hunnested
      obtain ⟨written, hedits, hkept⟩ := h.literalText_of_run hslash
      obtain ⟨rest, rfl, hnext⟩ := h.split_token hslash hx
      have hslash' : '\\' ∉ rest := fun hmem => hslash (List.mem_append_right _ hmem)
      obtain ⟨rest', written', rfl, hrun, hedits', hkept'⟩ := ih hnext hslash' hfront
      rw [List.flatMap_cons, run_append]
      refine ⟨rest', written' ++ written, (List.append_assoc ..).symm, hrun, ?_, ?_⟩
      · rw [hedits', hedits, List.append_assoc]
      · rw [List.reverse_append, Edit.output_append, ← List.singleton_append, literalText_append]
        exact hkept.append hkept'

end StripsTokens

/-! ### Scripts -/

/-- Where nothing is held back, the edits cover what has been read. -/
theorem CommentState.source_edits_of_pending {t : Text} (h : (start.run t).pending = []) :
    Edit.source (start.run t).edits.reverse = t := by
  have hsource := source_finish_run start t
  rw [finish, h, List.append_nil] at hsource
  exact hsource

section

variable {script : Text} {x : CodePlace × CodeToken} {front behind : List (CodePlace × CodeToken)}

theorem CodeToken.eq_of_lexScript (h : lexScript script = front ++ x :: behind) :
    script = front.flatMap (·.2.text) ++ (x.2.text ++ behind.flatMap (·.2.text)) := by
  have htext := (lexed_lexFrom isCutOff_nextOrComment .top [] script).flatMap_text
  rw [← lexScript, h, List.flatMap_append, List.flatMap_cons] at htext
  exact htext.symm

/-- If no back quote stands in a substitution, all that stands in literals is kept. -/
theorem literalText_sublist_withoutComments (hslash : '\\' ∉ script)
    (hunnested : Unnested (lexScript script)) :
    (literalText (lexScript script)).Sublist (withoutComments script) := by
  have htokens := StripsTokens.of_lexScript script
  rw [← List.append_nil (lexScript script)] at htokens
  obtain ⟨rest, written, hscript, hrun, hedits, hkept⟩ := htokens.split_tokens hslash hunnested
  rw [hrun.eq_nil, List.append_nil] at hscript
  have hstart : CommentState.start.edits = [] := rfl
  rw [← hscript, hstart, List.append_nil] at hedits
  rw [withoutComments, commentEdits, CommentState.finish, hedits, Edit.output_append]
  exact hkept.trans (List.sublist_append_left _ _)

/-- The comment scan in front of a token, if no back quote stands in a substitution before. -/
theorem stripsTokens_of_unnested (hslash : '\\' ∉ script)
    (h : lexScript script = front ++ x :: behind) (hunnested : Unnested front) :
    '\\' ∉ x.2.text ++ behind.flatMap (·.2.text) ∧
      StripsTokens (CommentState.start.run (front.flatMap (·.2.text)))
        (x.2.text ++ behind.flatMap (·.2.text)) (x :: behind) := by
  have htokens := StripsTokens.of_lexScript script
  rw [h] at htokens
  obtain ⟨rest, -, hscript, hrun, -⟩ := htokens.split_tokens hslash hunnested
  obtain rfl := List.append_cancel_left ((eq_of_lexScript h).symm.trans hscript)
  refine ⟨?_, hrun⟩
  intro hmem
  refine hslash ?_
  rw [hscript]
  exact List.mem_append_right _ hmem

/-- A token of a literal is kept where it is, if no back quote stands in a substitution before. -/
theorem commentEdits_of_isLiteral (hslash : '\\' ∉ script)
    (h : lexScript script = front ++ x :: behind) (hunnested : Unnested front)
    (hliteral : x.1.inner.isLiteral) :
    ∃ es fs, commentEdits script = es ++ Edit.keepAll x.2.text ++ fs ∧
      Edit.source es = front.flatMap (·.2.text) := by
  obtain ⟨hslash', hstrips⟩ := stripsTokens_of_unnested hslash h hunnested
  obtain ⟨hpending, hedits⟩ := hstrips.edits_of_isLiteral hslash' hliteral
  have hscript : commentEdits script =
      (((CommentState.start.run (front.flatMap (·.2.text))).run x.2.text).run
        (behind.flatMap (·.2.text))).finish := by
    rw [commentEdits, eq_of_lexScript h, CommentState.run_append, CommentState.run_append]
  rw [CommentState.finish_run, hedits, List.reverse_append, List.reverse_reverse] at hscript
  exact ⟨_, _, hscript, CommentState.source_edits_of_pending hpending⟩

/-- Behind the first back quote that stands in a substitution, the rest of the script is stripped
like a script of its own. -/
theorem commentEdits_of_inSubstitution {v w : Text} (hslash : '\\' ∉ script)
    (h : lexScript script = front ++ x :: behind) (hunnested : Unnested front)
    (hx : x.1.InSubstitution) (htext : x.2.text = v ++ '\x60' :: w) (hv : '\x60' ∉ v) :
    ∃ es, commentEdits script = es ++ commentEdits (w ++ behind.flatMap (·.2.text)) ∧
      Edit.source es = front.flatMap (·.2.text) ++ (v ++ ['\x60']) := by
  obtain ⟨hslash', hstrips⟩ := stripsTokens_of_unnested hslash h hunnested
  obtain ⟨hpending, hrun⟩ := hstrips.run_nestedQuote hslash' hx htext hv
  have hscript : script = front.flatMap (·.2.text) ++
      ((v ++ ['\x60']) ++ (w ++ behind.flatMap (·.2.text))) := by
    rw [eq_of_lexScript h, htext]
    simp
  refine ⟨(CommentState.start.run (front.flatMap (·.2.text))).edits.reverse ++
    Edit.keepAll (v ++ ['\x60']), ?_, ?_⟩
  · rw [commentEdits, hscript, CommentState.run_append, CommentState.run_append, hrun,
      CommentState.finish_run, List.reverse_append, List.reverse_reverse]
    rfl
  · rw [Edit.source_append, CommentState.source_edits_of_pending hpending, Edit.source_keepAll]

/-- In a script without backslashes whose templates are not nested, all that stands in literals is
kept, in order. In any script without backslashes, a token of a literal is kept where it is if no
back quote stands in a substitution before; and behind the first one that does, the rest of the
script is stripped like a script of its own. -/
theorem literals_kept (hslash : '\\' ∉ script) :
    (Unnested (lexScript script) →
      (literalText (lexScript script)).Sublist (withoutComments script)) ∧
    ∀ front x behind, lexScript script = front ++ x :: behind → Unnested front →
      (x.1.inner.isLiteral → ∃ es fs, commentEdits script = es ++ Edit.keepAll x.2.text ++ fs ∧
        Edit.source es = front.flatMap (·.2.text)) ∧
      ∀ v w, x.1.InSubstitution → x.2.text = v ++ '\x60' :: w → '\x60' ∉ v →
        ∃ es, commentEdits script = es ++ commentEdits (w ++ behind.flatMap (·.2.text)) ∧
          Edit.source es = front.flatMap (·.2.text) ++ (v ++ ['\x60']) := by
  refine ⟨literalText_sublist_withoutComments hslash, ?_⟩
  intro front x behind h hunnested
  refine ⟨commentEdits_of_isLiteral hslash h hunnested, ?_⟩
  intro v w
  exact commentEdits_of_inSubstitution hslash h hunnested

end

/-- The slashes of a template are kept, and those behind it are not. -/
theorem template_literals_kept :
    literalText (lexScript "\x60// $\x7bd\x7d\x60; // e".toList) = "// $\x7b\x60".toList ∧
      withoutComments "\x60// $\x7bd\x7d\x60; // e".toList = "\x60// $\x7bd\x7d\x60; ".toList ∧
      (literalText (lexScript "\x60// $\x7bd\x7d\x60; // e".toList)).Sublist
        (withoutComments "\x60// $\x7bd\x7d\x60; // e".toList) :=
  ⟨by decide, by decide, (literals_kept (by decide)).1 (by decide)⟩

end ElementScript
