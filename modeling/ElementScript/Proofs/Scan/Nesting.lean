import ElementScript.Proofs.Listener.Tokens
import ElementScript.Proofs.Scan.Block

/-!
# Nested templates

The lexer behind renaming keeps a stack of contexts, the flat scanner keeps one quote. In front of a
token the two are in step (`InStep`) if the flat scanner is in code exactly outside of all literals,
and else in the outermost one. One token leaves them in step (`InStep.next`), unless it is a back
quote inside a substitution: the flat scanner takes that for the end of the whole template. So if
there is none, a block is found up to the brace at which the lexer sees it end, and else the two
part at the first one (`Block.firstFrom_of_lexed`).
-/

namespace ElementScript

open BraceState

/-! ### Places in a substitution -/

/-- A template is among the contexts around the place, so that it lies in a substitution. -/
def CodePlace.InSubstitution (p : CodePlace) : Prop := .literal '\x60' ∈ p.outer

instance (p : CodePlace) : Decidable p.InSubstitution :=
  inferInstanceAs (Decidable (_ ∈ p.outer))

theorem inSubstitution_append {inner context : CodeContext} {outer : List CodeContext} :
    CodePlace.InSubstitution ⟨inner, outer ++ [.literal '\x60', context]⟩ :=
  List.mem_append_right outer List.mem_cons_self

namespace CodeToken

/-- A back quote inside a substitution: of a template that is nested in another one, or in a literal
there. -/
def IsNestedQuote (x : CodePlace × CodeToken) : Prop := x.1.InSubstitution ∧ '\x60' ∈ x.2.text

instance (x : CodePlace × CodeToken) : Decidable (IsNestedQuote x) :=
  inferInstanceAs (Decidable (_ ∧ _))

/-- No back quote stands in a substitution. -/
def Unnested (tokens : List (CodePlace × CodeToken)) : Prop := ∀ x ∈ tokens, ¬ IsNestedQuote x

instance (tokens : List (CodePlace × CodeToken)) : Decidable (Unnested tokens) :=
  inferInstanceAs (Decidable (∀ _ ∈ tokens, _))

/-- The brace that closes a block, as the lexer meets it behind the opening one. -/
def blockEnd : CodePlace × CodeToken := (⟨.code 1, []⟩, .fixed ['}'])

/-- A scan that tells by the text read so far whether it is in code agrees with the lexer: in front
of every token, it is in code exactly if no literal is open. -/
def AgreesWith (inCode : Text → Bool) (tokens : List (CodePlace × CodeToken)) : Prop :=
  ∀ front x behind, tokens = front ++ x :: behind →
    (inCode (front.flatMap (·.2.text)) ↔ x.1.outer = [])

theorem agreesWith_cons {inCode : Text → Bool} {x : CodePlace × CodeToken}
    {tokens : List (CodePlace × CodeToken)} :
    AgreesWith inCode (x :: tokens) ↔
      (inCode [] ↔ x.1.outer = []) ∧ AgreesWith (fun t => inCode (x.2.text ++ t)) tokens := by
  constructor
  · intro h
    refine ⟨h [] x tokens rfl, ?_⟩
    intro front y behind htokens
    have hfront := h (x :: front) y behind (by rw [htokens, List.cons_append])
    rwa [List.flatMap_cons] at hfront
  · intro hspec front y behind htokens
    obtain ⟨hx, htail⟩ := hspec
    cases front with
    | nil =>
        cases htokens
        exact hx
    | cons x' front =>
        cases htokens
        exact htail front y behind rfl

/-! ### What a token can hold -/

section

variable {before u rest : Text} {p q : CodePlace} {token : CodeToken} {c : Char}

/-- A token enters a context, leaves one, or stays where it is. -/
theorem IsNext.outer_cases (h : IsNext before p u rest token q) :
    q.outer = p.outer ∨ q.outer = p.inner :: p.outer ∨ q = p.leave := by
  cases h with
  | closeQuote => exact Or.inr (Or.inr rfl)
  | closeSubstitution => exact Or.inr (Or.inr rfl)
  | openSubstitution => exact Or.inr (Or.inl rfl)
  | openQuote => exact Or.inr (Or.inl rfl)
  | _ => exact Or.inl rfl

/-- A token is one character, the start of a substitution, or made of what numbers are made of, if
nothing is escaped. -/
theorem IsNext.text_cases (h : IsNext before p u rest token q) (hslash : '\\' ∉ u) :
    (∃ c, u = [c]) ∨ u = ['$', '{'] ∨ ∀ c ∈ u, isNumberPart c := by
  cases h with
  | escape => exact absurd List.mem_cons_self hslash
  | openSubstitution => exact Or.inr (Or.inl rfl)
  | number hc hw =>
      have hpart := isNumberPart_of_isWordPart (isWordPart_of_isDigit hc)
      exact Or.inr (Or.inr (List.forall_mem_cons.mpr ⟨hpart, hw⟩))
  | word _ hparts => exact Or.inr (Or.inr fun c hc => isNumberPart_of_isWordPart (hparts c hc))
  | _ => exact Or.inl ⟨_, rfl⟩

/-- A character that can be part of neither a word, nor a number, nor the start of a substitution is
a token of its own. -/
theorem IsNext.eq_singleton (h : IsNext before p u rest token q) (hslash : '\\' ∉ u) (hc : c ∈ u)
    (hpart : ¬ isNumberPart c) (hopen : c ≠ '{') : u = [c] := by
  rcases h.text_cases hslash with ⟨d, rfl⟩ | rfl | hparts
  · rw [List.mem_singleton.mp hc]
  · rcases List.mem_cons.mp hc with rfl | hc
    · exact absurd (by decide) hpart
    · exact absurd (List.mem_singleton.mp hc) hopen
  · exact absurd (hparts c hc) hpart

end

end CodeToken

/-! ### Texts that leave the flat scanner where it is -/

namespace BraceState

variable {s : BraceState} {floor : Int} {t : Text} {c : Char}

theorem weight_eq_zero (hopen : c ≠ '{') (hclose : c ≠ '}') : weight c = 0 := by
  rw [weight, if_neg hopen, if_neg hclose]

/-- A text without braces does not change the depth. -/
theorem run_depth_of_weight (h : ∀ c ∈ t, weight c = 0) : (s.run t).depth = s.depth := by
  induction t generalizing s with
  | nil => rfl
  | cons c t ih =>
      obtain ⟨hc, ht⟩ := List.forall_mem_cons.mp h
      rw [run_cons, ih ht, step, hc, ite_self, Int.add_zero]

/-- A scan over a text that has no brace but as its last character stays above what is below both of
its ends. -/
theorem staysAbove_of_weight (h : ∀ c ∈ t.dropLast, weight c = 0) (hstart : floor ≤ s.depth)
    (hend : floor ≤ (s.run t).depth) : s.StaysAbove floor t := by
  intro u hu
  by_cases heq : u = t
  · rw [heq]
    exact hend
  · have hfront : u <+: t.dropLast := by
      obtain ⟨v, rfl⟩ := hu
      rcases List.eq_nil_or_concat v with rfl | ⟨v, c, rfl⟩
      · simp at heq
      · rw [List.concat_eq_append, ← List.append_assoc, List.dropLast_concat]
        exact List.prefix_append u v
    rw [run_depth_of_weight fun c hc => h c (hfront.subset hc)]
    exact hstart

/-- Nothing happens in a literal as long as it is not closed and nothing is escaped. -/
theorem run_of_literal {quote : Char} {depth : Int} (hquote : quote ∉ t) (hslash : '\\' ∉ t) :
    (BraceState.mk ⟨some quote, false⟩ depth).run t = ⟨⟨some quote, false⟩, depth⟩ := by
  induction t with
  | nil => rfl
  | cons c t ih =>
      rw [List.mem_cons, not_or] at hquote hslash
      have hstep : (BraceState.mk ⟨some quote, false⟩ depth).step c =
          ⟨⟨some quote, false⟩, depth⟩ :=
        step_literal_of_ne (Ne.symm hslash.1) (Ne.symm hquote.1)
      rw [run_cons, hstep, ih hquote.2 hslash.2]

end BraceState

/-- No token has a brace but as its last character, if nothing is escaped. -/
theorem CodeToken.IsNext.weight_of_mem_dropLast {before u rest : Text} {p q : CodePlace}
    {token : CodeToken} (h : IsNext before p u rest token q) (hslash : '\\' ∉ u) :
    ∀ c ∈ u.dropLast, weight c = 0 := by
  rcases h.text_cases hslash with ⟨d, rfl⟩ | rfl | hparts
  · intro c hc
    cases hc
  · intro c hc
    rw [List.mem_singleton.mp hc]
    rfl
  · intro c hc
    have hplain := isPlain_of_isNumberPart (hparts c (List.dropLast_subset u hc))
    simp only [isPlain, Bool.and_eq_true, bne_iff_ne, ne_eq] at hplain
    exact weight_eq_zero hplain.1.1.1 hplain.1.1.2

/-! ### Keeping step -/

/-- The flat scanner as it stands in front of a place when it is in step with the lexer, and the
depth of the code around all literals. -/
inductive InStep : CodePlace → QuoteState → Nat → Prop
  | code {depth : Nat} : InStep ⟨.code depth, []⟩ .code depth
  | literal {quote : Char} {depth : Nat} :
      InStep ⟨.literal quote, [.code depth]⟩ ⟨some quote, false⟩ depth
  /-- Whatever a substitution holds, it is text of the template to the flat scanner. -/
  | substitution {inner : CodeContext} {outer : List CodeContext} {depth : Nat} :
      InStep ⟨inner, outer ++ [.literal '\x60', .code depth]⟩ ⟨some '\x60', false⟩ depth

namespace InStep

open CodeToken

variable {before u rest : Text} {p q : CodePlace} {token : CodeToken} {s : QuoteState}
  {depth : Nat}

theorem inCode_iff (h : InStep p s depth) : s.inCode ↔ p.outer = [] := by
  cases h <;> simp [QuoteState.inCode, QuoteState.code]

theorem eq_code {d : Nat} (h : InStep ⟨.code d, []⟩ s depth) : s = .code ∧ depth = d := by
  generalize hp : (⟨.code d, []⟩ : CodePlace) = p at h
  cases h with
  | code =>
      cases hp
      exact ⟨rfl, rfl⟩
  | literal => cases hp
  | @substitution inner outer => cases outer <;> cases hp

/-- In a substitution, every token leaves the flat scanner in the same template. -/
theorem of_outer_eq {outer : List CodeContext}
    (hp : p.outer = outer ++ [.literal '\x60', .code depth])
    (hnext : IsNext before p u rest token q) : InStep q ⟨some '\x60', false⟩ depth := by
  rcases hnext.outer_cases with hq | hq | rfl
  · obtain ⟨inner, outer'⟩ := q
    obtain rfl : outer' = _ := hq.trans hp
    exact .substitution
  · obtain ⟨inner, outer'⟩ := q
    obtain rfl : outer' = (p.inner :: outer) ++ [.literal '\x60', .code depth] := by
      rw [List.cons_append, ← hp]
      exact hq
    exact .substitution
  · cases outer with
    | nil =>
        rw [CodePlace.leave, hp]
        exact .literal
    | cons context outer =>
        rw [CodePlace.leave, hp]
        exact .substitution

/-- To be in step behind a token, it is enough to know what the flat scanner makes of it. -/
theorem of_run {s' : QuoteState} {depth' : Nat} {n : Int} (hq : InStep q s' depth')
    (hrun : (BraceState.mk s depth).run u = ⟨s', n⟩)
    (hdepth : 0 < depth → n = depth' ∧ (0 < depth' ∨ (p, token) = blockEnd)) :
    ∃ depth', InStep q (s.run u) depth' ∧
      (0 < depth → (BraceState.mk s depth).run u = ⟨s.run u, depth'⟩ ∧
        (0 < depth' ∨ (p, token) = blockEnd)) := by
  have hs' : s.run u = s' := by
    have hquotes := run_toQuoteState ⟨s, depth⟩ u
    rw [hrun] at hquotes
    exact hquotes.symm
  rw [hs']
  refine ⟨depth', hq, ?_⟩
  intro hpos
  obtain ⟨rfl, hend⟩ := hdepth hpos
  exact ⟨hrun, hend⟩

/-- Most tokens do not change the depth of the code around all literals. -/
theorem of_run_same {s' : QuoteState} (hq : InStep q s' depth)
    (hrun : (BraceState.mk s depth).run u = ⟨s', depth⟩) :
    ∃ depth', InStep q (s.run u) depth' ∧
      (0 < depth → (BraceState.mk s depth).run u = ⟨s.run u, depth'⟩ ∧
        (0 < depth' ∨ (p, token) = blockEnd)) :=
  of_run hq hrun fun hpos => ⟨rfl, Or.inl hpos⟩

/-- One token leaves the lexer and the flat scanner in step, unless it is a back quote in a
substitution. Inside a block, the scanner counts the braces as well. -/
theorem inStep_run (h : InStep p s depth) (hnext : IsNext before p u rest token q)
    (hslash : '\\' ∉ u) (hunnested : ¬ IsNestedQuote (p, token)) :
    ∃ depth', InStep q (s.run u) depth' ∧
      (0 < depth → (BraceState.mk s depth).run u = ⟨s.run u, depth'⟩ ∧
        (0 < depth' ∨ (p, token) = blockEnd)) := by
  have htext := hnext.text_eq
  cases h with
  | code =>
      have hplain (hu : ∀ c ∈ u, isPlain c) :
          (BraceState.mk .code depth).run u = ⟨.code, depth⟩ :=
        run_of_isPlain hu hnext.ne_nil QuoteState.isProper_code
      cases hnext with
      | @openQuote quote _ _ _ hquote =>
          have hrun : (BraceState.mk .code depth).run [quote] = ⟨⟨some quote, false⟩, depth⟩ :=
            step_openQuote hquote
          exact of_run_same .literal hrun
      | openBrace =>
          have hrun : (BraceState.mk .code depth).run ['{'] = ⟨.code, depth + 1⟩ := rfl
          exact of_run .code hrun fun _ => ⟨rfl, Or.inl depth.succ_pos⟩
      | closeBrace =>
          have hrun : (BraceState.mk .code depth).run ['}'] = ⟨.code, depth + -1⟩ := rfl
          refine of_run .code hrun ?_
          intro hpos
          refine ⟨by omega, ?_⟩
          by_cases hone : depth = 1
          · subst hone
            exact Or.inr rfl
          · exact Or.inl (by omega)
      | number hc hw =>
          have hpart := isNumberPart_of_isWordPart (isWordPart_of_isDigit hc)
          have hrun := hplain <| List.forall_mem_cons.mpr
            ⟨isPlain_of_isNumberPart hpart, fun d hd => isPlain_of_isNumberPart (hw d hd)⟩
          exact of_run_same .code hrun
      | word _ hparts =>
          have hrun := hplain fun c hc => isPlain_of_isWordPart (hparts c hc)
          exact of_run_same .code hrun
      | @mark _ _ c _ hquote hopen hclose =>
          have hslash' : c ≠ '\\' := fun heq => hslash (List.mem_singleton.mpr heq.symm)
          have hc : isPlain c := by simp [isPlain, hopen, hclose, hslash', hquote]
          have hrun := hplain fun d hd => List.mem_singleton.mp hd ▸ hc
          exact of_run_same .code hrun
  | @literal quote =>
      cases hnext with
      | escape => exact absurd List.mem_cons_self hslash
      | closeQuote hquote =>
          have hrun : (BraceState.mk ⟨some quote, false⟩ depth).run [quote] = ⟨.code, depth⟩ :=
            step_closeQuote hquote
          exact of_run_same .code hrun
      | openSubstitution =>
          have hrun : (BraceState.mk ⟨some '\x60', false⟩ depth).run ['$', '{'] =
              ⟨⟨some '\x60', false⟩, depth⟩ := run_of_literal (by decide) (by decide)
          have hq := @substitution (.code 0) [] depth
          exact of_run_same hq hrun
      | literal _ hquote =>
          have hmem := mt List.mem_singleton.mp hquote.symm
          exact of_run_same .literal (run_of_literal hmem hslash)
  | @substitution inner outer =>
      have hquote : '\x60' ∉ u := by
        intro hmem
        rw [← htext] at hmem
        exact hunnested ⟨inSubstitution_append, hmem⟩
      exact of_run_same (of_outer_eq rfl hnext) (run_of_literal hquote hslash)

/-- In a substitution, the flat scanner is in the text of a template. -/
theorem eq_of_inSubstitution (h : InStep p s depth) (hp : p.InSubstitution) :
    s = ⟨some '\x60', false⟩ ∧ ∃ outer, p.outer = outer ++ [.literal '\x60', .code depth] := by
  cases h with
  | code => cases hp
  | literal => simp [CodePlace.InSubstitution] at hp
  | @substitution inner outer => exact ⟨rfl, outer, rfl⟩

/-- A back quote in a substitution ends the template for the flat scanner, but not for the lexer. -/
theorem code_of_isNestedQuote (h : InStep p s depth) (hnext : IsNext before p u rest token q)
    (hslash : '\\' ∉ u) (hnested : IsNestedQuote (p, token)) :
    s.run u = .code ∧ q.outer ≠ [] := by
  obtain ⟨hsubstitution, hquote⟩ := hnested
  rw [hnext.text_eq] at hquote
  have hu : u = ['\x60'] := hnext.eq_singleton hslash hquote (by decide) (by decide)
  obtain ⟨rfl, outer, houter⟩ := h.eq_of_inSubstitution hsubstitution
  rw [hu]
  refine ⟨rfl, ?_⟩
  rcases hnext.outer_cases with hq | hq | rfl
  · rw [hq, houter]
    simp
  · rw [hq]
    simp
  · rw [CodePlace.leave, houter]
    cases outer <;> simp

end InStep

/-! ### Inside a block -/

open CodeToken

/-- The flat scanner is inside a block and in step with the lexer, which is about to cut the text
into the tokens. -/
inductive InsideBlock : BraceState → Text → List (CodePlace × CodeToken) → Prop
  | intro {p : CodePlace} {s : QuoteState} {depth : Nat} {before t : Text}
      {tokens : List (CodePlace × CodeToken)} (hstep : InStep p s depth) (hpos : 0 < depth)
      (hlexed : Lexed next p before t tokens) : InsideBlock ⟨s, depth⟩ t tokens

namespace InsideBlock

variable {s : BraceState} {t : Text} {x y : CodePlace × CodeToken}
  {front body behind tokens : List (CodePlace × CodeToken)}

theorem inCode_iff (h : InsideBlock s t (x :: tokens)) : s.inCode ↔ x.1.outer = [] := by
  obtain ⟨hstep, hpos, hlexed⟩ := h
  cases hlexed
  exact hstep.inCode_iff

/-- In front of the brace that closes the block, no other one is open. -/
theorem eq_atDepth_one (h : InsideBlock s t (blockEnd :: tokens)) : s = atDepth 1 := by
  obtain ⟨hstep, hpos, hlexed⟩ := h
  cases hlexed with
  | token =>
      obtain ⟨rfl, rfl⟩ := hstep.eq_code
      rfl

/-- One token, which neither ends the block nor stands for a nested template. -/
theorem split_token (h : InsideBlock s t (x :: tokens)) (hslash : '\\' ∉ t) (hend : x ≠ blockEnd)
    (hunnested : ¬ IsNestedQuote x) :
    ∃ rest, t = x.2.text ++ rest ∧ s.StaysAbove 1 x.2.text ∧
      InsideBlock (s.run x.2.text) rest tokens := by
  obtain ⟨hstep, hpos, hlexed⟩ := h
  cases hlexed with
  | @token p q before w rest c token tokens hnext htext behind =>
      have hisNext := next_eq_iff.mp ⟨hnext, htext⟩
      have hslash' : '\\' ∉ c :: w := fun hmem => hslash (List.mem_append_left rest hmem)
      obtain ⟨depth', hstep', hinside⟩ := hstep.inStep_run hisNext hslash' hunnested
      obtain ⟨hrun, hdepth⟩ := hinside hpos
      have hpos' : 0 < depth' := hdepth.resolve_right hend
      refine ⟨rest, ?_, ?_, ?_⟩
      · show c :: (w ++ rest) = token.text ++ rest
        rw [htext, List.cons_append]
      · show StaysAbove _ 1 token.text
        rw [htext]
        refine staysAbove_of_weight (hisNext.weight_of_mem_dropLast hslash') ?_ ?_
        · exact Int.ofNat_le.mpr hpos
        · rw [hrun]
          exact Int.ofNat_le.mpr hpos'
      · show InsideBlock (BraceState.run _ token.text) rest tokens
        rw [htext, hrun]
        exact .intro hstep' hpos' behind

/-- A run of such tokens. -/
theorem split_tokens (h : InsideBlock s t (front ++ tokens)) (hslash : '\\' ∉ t)
    (hend : blockEnd ∉ front) (hunnested : Unnested front) :
    ∃ rest, t = front.flatMap (·.2.text) ++ rest ∧ s.StaysAbove 1 (front.flatMap (·.2.text)) ∧
      InsideBlock (s.run (front.flatMap (·.2.text))) rest tokens := by
  induction front generalizing s t with
  | nil =>
      refine ⟨t, rfl, staysAbove_nil.mpr ?_, h⟩
      obtain ⟨-, hpos, -⟩ := h
      exact Int.ofNat_le.mpr hpos
  | cons x front ih =>
      obtain ⟨hx, hfront⟩ := List.forall_mem_cons.mp hunnested
      rw [List.mem_cons, not_or] at hend
      obtain ⟨rest, rfl, hstays, hnext⟩ := h.split_token hslash (Ne.symm hend.1) hx
      have hslash' : '\\' ∉ rest := fun hmem => hslash (List.mem_append_right _ hmem)
      obtain ⟨rest', rfl, hstays', hrun⟩ := ih hnext hslash' hend.2 hfront
      rw [List.flatMap_cons, run_append]
      exact ⟨rest', (List.append_assoc ..).symm, staysAbove_append.mpr ⟨hstays, hstays'⟩, hrun⟩

/-- Behind a back quote in a substitution, the flat scanner and the lexer do not agree any more. -/
theorem disagrees_of_isNestedQuote (h : InsideBlock s t (x :: y :: tokens)) (hslash : '\\' ∉ t)
    (hnested : IsNestedQuote x) : ¬ ((s.run x.2.text).inCode ↔ y.1.outer = []) := by
  obtain ⟨hstep, hpos, hlexed⟩ := h
  cases hlexed with
  | @token p q before w rest c token tokens hnext htext behind =>
      have hisNext := next_eq_iff.mp ⟨hnext, htext⟩
      have hslash' : '\\' ∉ c :: w := fun hmem => hslash (List.mem_append_left rest hmem)
      obtain ⟨hcode, houter⟩ := hstep.code_of_isNestedQuote hisNext hslash' hnested
      cases behind
      intro hiff
      refine houter (hiff.mp ?_)
      show (BraceState.run _ token.text).toQuoteState.inCode
      rw [htext, run_toQuoteState, hcode]
      rfl

/-- The flat scanner and the lexer agree up to the end of the block exactly if no back quote stands
in a substitution. -/
theorem agreesWith_iff (h : InsideBlock s t (body ++ blockEnd :: behind)) (hslash : '\\' ∉ t)
    (hend : blockEnd ∉ body) :
    AgreesWith (fun u => (s.run u).inCode) (body ++ [blockEnd]) ↔ Unnested body := by
  induction body generalizing s t with
  | nil =>
      rw [List.nil_append, agreesWith_cons]
      refine iff_of_true ⟨h.inCode_iff, ?_⟩ (List.forall_mem_nil _)
      intro front x behind hnil
      simp at hnil
  | cons x body ih =>
      rw [List.mem_cons, not_or] at hend
      have hhead : (s.run []).inCode ↔ x.1.outer = [] := h.inCode_iff
      rw [List.cons_append, agreesWith_cons, Unnested, List.forall_mem_cons]
      simp only [run_append]
      by_cases hx : IsNestedQuote x
      · -- The two do not agree in front of the next token.
        refine iff_of_false ?_ fun hspec => hspec.1 hx
        intro hspec
        obtain ⟨-, htail⟩ := hspec
        cases body with
        | nil => exact h.disagrees_of_isNestedQuote hslash hx (htail [] blockEnd [] rfl)
        | cons y body => exact h.disagrees_of_isNestedQuote hslash hx (htail [] y _ rfl)
      · obtain ⟨rest, rfl, -, hnext⟩ := h.split_token hslash (Ne.symm hend.1) hx
        have hslash' : '\\' ∉ rest := fun hmem => hslash (List.mem_append_right _ hmem)
        rw [ih hnext hslash' hend.2]
        exact and_congr (iff_of_true hhead hx) Iff.rfl

end InsideBlock

/-! ### Blocks -/

/-- The block that the lexer finds when it is started at the first brace at or after a place, and
the tokens of its body. -/
def Block.lexedFrom? (script : Text) (start : Nat) :
    Option (Block × List (CodePlace × CodeToken)) :=
  match Text.splitAt? start script with
  | none => none
  | some (_, rest) =>
    let opening := start + Text.byteSize (rest.takeWhile (· != '{'))
    match rest.dropWhile (· != '{') with
    | [] => none
    | _ :: inside =>
      let tokens := lexFrom next ⟨.code 1, []⟩ 0 ['{'] inside
      let body := tokens.takeWhile (· != blockEnd)
      match tokens.dropWhile (· != blockEnd) with
      | [] => none
      | _ :: _ => some (.ofBody start opening (body.flatMap (·.2.text)), body)

/-- Where the lexer finds a block. -/
theorem Block.lexedFrom?_eq_some {script : Text} {start : Nat} {block : Block}
    {body : List (CodePlace × CodeToken)} (h : lexedFrom? script start = some (block, body)) :
    ∃ before head inside behind, script = before ++ (head ++ '{' :: inside) ∧
      Text.byteSize before = start ∧ '{' ∉ head ∧
      block = .ofBody start (start + Text.byteSize head) (body.flatMap (·.2.text)) ∧
      lexFrom next ⟨.code 1, []⟩ 0 ['{'] inside = body ++ blockEnd :: behind ∧ blockEnd ∉ body := by
  unfold lexedFrom? at h
  split at h
  · cases h
  · rename_i before rest hsplit
    obtain ⟨rfl, rfl⟩ := Text.splitAt?_eq_some_iff.mp hsplit
    dsimp only at h
    split at h
    · cases h
    · rename_i d inside hinside
      obtain ⟨hrest, hhead⟩ := eq_takeWhile_append_of_dropWhile hinside
      split at h
      · cases h
      · rename_i x behind hbehind
        cases h
        obtain ⟨htokens, hbody⟩ := eq_takeWhile_append_of_dropWhile hbehind
        exact ⟨before, _, inside, behind, congrArg (before ++ ·) hrest, rfl, hhead, rfl, htokens,
          hbody⟩

/-- If the lexer finds a block in a script without backslashes, and no back quote stands in a
substitution of its body, then the block is found. Up to the end of the block, the flat scanner and
the lexer agree about what is code exactly if no back quote stands in a substitution; and whether
they do or not, the block is found exactly if the flat scanner finds its body balanced. -/
theorem Block.firstFrom_of_lexed {script : Text} {start : Nat} {block : Block}
    {body : List (CodePlace × CodeToken)} (hslash : '\\' ∉ script)
    (h : lexedFrom? script start = some (block, body)) :
    (Unnested body → firstFrom script start = .ok block) ∧
      (AgreesWith (fun t => ((atDepth 1).run t).inCode) (body ++ [blockEnd]) ↔ Unnested body) ∧
      (firstFrom script start = .ok block ↔ Text.IsBalanced (body.flatMap (·.2.text))) := by
  obtain ⟨before, head, inside, behind, rfl, rfl, hhead, rfl, htokens, hend⟩ :=
    lexedFrom?_eq_some h
  have hinside : '\\' ∉ inside := by
    intro hmem
    refine hslash ?_
    simp [hmem]
  have hlexed := lexed_lexFrom isCutOff_next ⟨.code 1, []⟩ ['{'] inside
  rw [htokens] at hlexed
  have hblock : InsideBlock (atDepth 1) inside (body ++ blockEnd :: behind) :=
    .intro .code Nat.one_pos hlexed
  have hcut : inside = body.flatMap (·.2.text) ++ '}' :: behind.flatMap (·.2.text) := by
    rw [← hlexed.flatMap_text, List.flatMap_append, List.flatMap_cons]
    rfl
  have hfound : firstFrom (before ++ (head ++ '{' :: inside)) (Text.byteSize before) =
        .ok (ofBody (Text.byteSize before) (Text.byteSize before + Text.byteSize head)
          (body.flatMap (·.2.text))) ↔ Text.IsBalanced (body.flatMap (·.2.text)) := by
    rw [hcut]
    exact firstFrom_eq_ok_iff hhead
  refine ⟨?_, hblock.agreesWith_iff hinside hend, hfound⟩
  intro hunnested
  obtain ⟨rest, -, hstays, hrun⟩ := hblock.split_tokens hinside hend hunnested
  exact hfound.mpr (Text.isBalanced_of_atDepth hstays hrun.eq_atDepth_one)

/-- A brace that stands behind a substitution is text of the template. -/
theorem substitution_firstFrom :
    Block.firstFrom "f() \x7b\x60$\x7ba\x7d\x7d\x60\x7d g".toList 1 = .ok ⟨1, 4, 13⟩ :=
  (Block.firstFrom_of_lexed (by decide) rfl).1 (by decide)

end ElementScript
