import ElementScript.Proofs.Scan.Balance
import ElementScript.Scan.Handler

/-!
# Walking through the arguments of a call

`ArgumentWalk` says what the search for a handler passes over, in units: a character that means
nothing, a parenthesis, a stray brace, or a whole block of another argument. A scan that takes these
units as the search does goes over a walk in one step (`IsArgumentScan.walk`). Every text can be
walked up to a point at which the search ends (`walkable`), and so the outcome of the search is
described by a walk and what stands behind it: the handler is the block behind a walk that leads
inside exactly one parenthesis (`handler?_eq_some_iff`).
-/

namespace ElementScript

/-- A character that the search for a handler looks at when it is read as code. -/
def isArgumentMark (c : Char) : Bool := c == '(' || c == ')' || c == '\x7b' || c == '\x7d'

/-- The search for a handler passes the text, from `parens` open parentheses and one state with
regard to literals to others, and finds neither a handler nor the end of the call on its way. -/
inductive ArgumentWalk : Nat → QuoteState → Text → Nat → QuoteState → Prop where
  | nil {parens : Nat} {quotes : QuoteState} : ArgumentWalk parens quotes [] parens quotes
  /-- A character of a literal, an escaped one, or one without meaning for the search. -/
  | char {parens parens' : Nat} {quotes quotes' : QuoteState} {c : Char} {u : Text}
      (hc : quotes.inCode → ¬ isArgumentMark c)
      (rest : ArgumentWalk parens (quotes.step c) u parens' quotes') :
      ArgumentWalk parens quotes (c :: u) parens' quotes'
  | openParen {parens parens' : Nat} {quotes' : QuoteState} {u : Text}
      (rest : ArgumentWalk (parens + 1) .code u parens' quotes') :
      ArgumentWalk parens .code ('(' :: u) parens' quotes'
  /-- A closing parenthesis that does not end the call. -/
  | closeParen {parens parens' : Nat} {quotes' : QuoteState} {u : Text}
      (rest : ArgumentWalk (parens + 1) .code u parens' quotes') :
      ArgumentWalk (parens + 2) .code (')' :: u) parens' quotes'
  /-- A brace that closes a block which was opened before the call. -/
  | strayBrace {parens parens' : Nat} {quotes' : QuoteState} {u : Text}
      (rest : ArgumentWalk parens .code u parens' quotes') :
      ArgumentWalk parens .code ('}' :: u) parens' quotes'
  /-- A block of another argument. -/
  | block {parens parens' : Nat} {quotes' : QuoteState} {body u : Text}
      (hparens : parens ≠ 1) (hbody : body.IsBalanced)
      (rest : ArgumentWalk parens .code u parens' quotes') :
      ArgumentWalk parens .code ('{' :: (body ++ '}' :: u)) parens' quotes'

/-! ### Walking through inert text -/

/-- A character that means nothing to a scan of arguments. -/
def isInert (c : Char) : Bool := BraceState.isPlain c && !isArgumentMark c

theorem isInert_iff {c : Char} : isInert c ↔ BraceState.isPlain c ∧ c ≠ '(' ∧ c ≠ ')' := by
  simp only [isInert, isArgumentMark, BraceState.isPlain, Bool.and_eq_true, Bool.not_eq_true',
    Bool.or_eq_false_iff, beq_eq_false_iff_ne, bne_iff_ne]
  grind

/-- The characters of a class are inert if it has none of the few that are not. -/
theorem isInert_of_class {p : Char → Bool} {c : Char}
    (hplain : ['\x7b', '\x7d', '\\', '\"', '\'', '\x60'].all fun d => !p d)
    (hparens : ['(', ')'].all fun d => !p d) (hc : p c) : isInert c := by
  refine isInert_iff.mpr ⟨BraceState.isPlain_of_class hplain hc, ?_, ?_⟩ <;>
    rintro rfl <;> simp [hc] at hparens

namespace ArgumentWalk

variable {parens parens' : Nat} {quotes quotes' : QuoteState} {u t : Text}

theorem inert_append (hu : ∀ c ∈ u, isInert c) (hproper : quotes.IsProper)
    (hescaped : quotes.escaped = false) (rest : ArgumentWalk parens quotes t parens' quotes') :
    ArgumentWalk parens quotes (u ++ t) parens' quotes' := by
  induction u with
  | nil => exact rest
  | cons c u ih =>
      obtain ⟨hc, htail⟩ := List.forall_mem_cons.mp hu
      obtain ⟨hplain, hmark⟩ := Bool.and_eq_true_iff.mp hc
      have hstep : quotes.step c = quotes :=
        QuoteState.run_of_isPlain (List.forall_mem_singleton.mpr hplain) hproper hescaped
      refine .char (fun _ => by simpa using hmark) ?_
      rw [hstep]
      exact ih htail

theorem of_isInert (hu : ∀ c ∈ u, isInert c) : ArgumentWalk parens .code u parens .code := by
  have hwalk : ArgumentWalk parens .code (u ++ []) parens .code :=
    inert_append hu QuoteState.isProper_code rfl .nil
  rwa [List.append_nil] at hwalk

end ArgumentWalk

/-! ### What scans see of a walk -/

/-- A character that is no brace of code leaves the depth as it is. -/
theorem BraceState.step_of_not_mark {quotes : QuoteState} {c : Char}
    (hc : quotes.inCode → ¬ isArgumentMark c) (depth : Int) :
    (⟨quotes, depth⟩ : BraceState).step c = ⟨quotes.step c, depth⟩ := by
  simp only [step, BraceState.mk.injEq, true_and]
  by_cases hcode : quotes.inCode
  · have hmark := hc hcode
    simp only [isArgumentMark, Bool.or_eq_true, beq_iff_eq, not_or] at hmark
    rw [if_pos hcode, weight, if_neg hmark.1.2, if_neg hmark.2, Int.add_zero]
  · rw [if_neg hcode, Int.add_zero]

/-- A function of the open parentheses, the state, the characters so far and the text goes on behind
each unit of a walk with what the unit leaves it with. -/
structure IsArgumentScan {α : Type} (f : Nat → BraceState → Text → Text → α) : Prop where
  char {quotes : QuoteState} {c : Char} (hc : quotes.inCode → ¬ isArgumentMark c) (parens : Nat)
    (passed t : Text) :
    f parens ⟨quotes, 0⟩ passed (c :: t) = f parens ⟨quotes.step c, 0⟩ (c :: passed) t
  /-- Inside a block, only braces are counted. -/
  inside {s : BraceState} (hs : s.depth ≠ 0) (parens : Nat) (passed : Text) (c : Char) (t : Text) :
    f parens s passed (c :: t) = f parens (s.step c) (c :: passed) t
  openParen (parens : Nat) (passed t : Text) :
    f parens ⟨.code, 0⟩ passed ('(' :: t) = f (parens + 1) ⟨.code, 0⟩ ('(' :: passed) t
  closeParen (parens : Nat) (passed t : Text) :
    f (parens + 2) ⟨.code, 0⟩ passed (')' :: t) = f (parens + 1) ⟨.code, 0⟩ (')' :: passed) t
  strayBrace (parens : Nat) (passed t : Text) :
    f parens ⟨.code, 0⟩ passed ('}' :: t) = f parens ⟨.code, 0⟩ ('}' :: passed) t
  openBrace {parens : Nat} {body : Text} (hparens : parens ≠ 1) (hbody : body.IsBalanced)
    (passed t : Text) :
    f parens ⟨.code, 0⟩ passed ('{' :: (body ++ '}' :: t)) =
      f parens (.atDepth 1) ('{' :: passed) (body ++ '}' :: t)

namespace IsArgumentScan

variable {α : Type} {f : Nat → BraceState → Text → Text → α} (hf : IsArgumentScan f)

include hf

theorem staysInside {parens : Nat} {s : BraceState} {u : Text} (hs : s.StaysAbove 1 u)
    (passed t : Text) :
    f parens s passed (u ++ t) = f parens (s.run u) (u.reverse ++ passed) t := by
  induction u generalizing s passed with
  | nil => rfl
  | cons c u ih =>
      obtain ⟨hdepth, htail⟩ := BraceState.staysAbove_cons.mp hs
      have hne : s.depth ≠ 0 := by omega
      rw [List.cons_append, hf.inside hne, ih htail]
      simp

/-- Behind the brace that opens a block, the rest of the block is passed over. -/
theorem leavesBlock {parens : Nat} {body : Text} (hbody : body.IsBalanced) (passed t : Text) :
    f parens (.atDepth 1) ('{' :: passed) (body ++ '}' :: t) =
      f parens ⟨.code, 0⟩ (('{' :: (body ++ ['}'])).reverse ++ passed) t := by
  have hdepth : (BraceState.atDepth 1).depth ≠ 0 := by decide
  have hleave : (BraceState.atDepth 1).step '}' = ⟨.code, 0⟩ := rfl
  rw [hf.staysInside (hbody.staysAbove 1), hbody.run_atDepth, hf.inside hdepth, hleave]
  simp

/-- A scan goes on behind a walk with what the walk left it with. -/
theorem append_walk {parens parens' : Nat} {quotes quotes' : QuoteState} {u : Text}
    (h : ArgumentWalk parens quotes u parens' quotes') (passed t : Text) :
    f parens ⟨quotes, 0⟩ passed (u ++ t) = f parens' ⟨quotes', 0⟩ (u.reverse ++ passed) t := by
  induction h generalizing passed with
  | nil => rfl
  | char hc rest ih =>
      rw [List.cons_append, hf.char hc, ih]
      simp
  | openParen rest ih =>
      rw [List.cons_append, hf.openParen, ih]
      simp
  | closeParen rest ih =>
      rw [List.cons_append, hf.closeParen, ih]
      simp
  | strayBrace rest ih =>
      rw [List.cons_append, hf.strayBrace, ih]
      simp
  | block hparens hbody rest ih =>
      rw [Text.braces_append, List.append_assoc, ← Text.braces_append,
        hf.openBrace hparens hbody, hf.leavesBlock hbody, ih]
      simp

end IsArgumentScan

/-- The scan for literals is a scan of arguments. -/
theorem isArgumentScan_run : IsArgumentScan fun _ s _ t => s.toQuoteState.run t where
  char _ _ _ _ := rfl
  inside _ _ _ _ _ := rfl
  openParen _ _ _ := rfl
  closeParen _ _ _ := rfl
  strayBrace _ _ _ := rfl
  openBrace _ _ _ _ := rfl

/-- So a walk says how the text is read with regard to literals. -/
theorem ArgumentWalk.run_quotes {parens parens' : Nat} {quotes quotes' : QuoteState} {u : Text}
    (h : ArgumentWalk parens quotes u parens' quotes') : quotes.run u = quotes' := by
  simpa using isArgumentScan_run.append_walk h [] []

/-! ### The search sees walks only -/

/-- In code, outside of any block of an argument, the next character decides. -/
theorem handlerFrom_code (parens : Nat) (passed : Text) (c : Char) (t : Text) :
    handlerFrom parens ⟨.code, 0⟩ passed (c :: t) =
      if c = '(' then handlerFrom (parens + 1) ⟨.code, 0⟩ (c :: passed) t
      else if c = ')' then
        if parens ≤ 1 then .ok none else handlerFrom (parens - 1) ⟨.code, 0⟩ (c :: passed) t
      else if c = '{' then
        match closeBlock t with
        | .error s => .error ((unclosedBlock s t).shift (Text.byteSize passed))
        | .ok (body, rest) =>
          if parens = 1 then .ok (some ⟨passed.reverse, body, rest⟩)
          else handlerFrom parens ((⟨.code, 0⟩ : BraceState).step c) (c :: passed) t
      else if c = '}' then handlerFrom parens ⟨.code, 0⟩ (c :: passed) t
      else handlerFrom parens ((⟨.code, 0⟩ : BraceState).step c) (c :: passed) t := by
  have hcode : ((⟨.code, 0⟩ : BraceState).inCode && (⟨.code, 0⟩ : BraceState).depth == 0) = true :=
    rfl
  rw [handlerFrom]
  exact if_pos hcode

/-- The search for a handler is a scan; a block is no handler unless one parenthesis is open. -/
theorem isArgumentScan_handlerFrom : IsArgumentScan handlerFrom where
  char {quotes c} hc parens passed t := by
    rw [handlerFrom, BraceState.step_of_not_mark hc]
    by_cases hcode : quotes.inCode
    · have hmark := hc hcode
      simp only [isArgumentMark, Bool.or_eq_true, beq_iff_eq, not_or] at hmark
      obtain ⟨⟨⟨hopen, hclose⟩, hbrace⟩, hbrace'⟩ := hmark
      rw [if_neg hopen, if_neg hclose, if_neg hbrace, if_neg hbrace', ite_self]
    · rw [if_neg (by simp [hcode])]
  inside hs parens passed c t := by rw [handlerFrom, if_neg (by simp [hs])]
  openParen parens passed t := by rw [handlerFrom_code, if_pos rfl]
  closeParen parens passed t := by
    rw [handlerFrom_code, if_neg (by decide), if_pos rfl, if_neg (by omega)]
    rfl
  strayBrace parens passed t := by
    rw [handlerFrom_code, if_neg (by decide), if_neg (by decide), if_neg (by decide), if_pos rfl]
  openBrace {parens body} hparens hbody passed t := by
    have hclose : closeBlock (body ++ '}' :: t) = .ok (body, t) :=
      closeBlock_eq_ok_iff.mpr ⟨rfl, hbody⟩
    rw [handlerFrom_code, if_neg (by decide), if_neg (by decide), if_pos rfl, hclose]
    exact if_neg hparens

/-! ### Where a search ends -/

/-- The ways in which a search ends behind a walk: the text is over, the call is closed, a handler
opens, or a block is left open. -/
inductive SearchEnd : Nat → QuoteState → Text → Prop where
  | ended {parens : Nat} {quotes : QuoteState} : SearchEnd parens quotes []
  | closed {parens : Nat} {t : Text} (hparens : parens ≤ 1) : SearchEnd parens .code (')' :: t)
  | handler {body rest : Text} (hbody : body.IsBalanced) :
      SearchEnd 1 .code ('{' :: (body ++ '}' :: rest))
  | unclosed {parens : Nat} {t : Text} {s : BraceState} (hs : closeBlock t = .error s) :
      SearchEnd parens .code ('{' :: t)

/-- The text can be walked up to a point at which the search ends. -/
def Walkable (parens : Nat) (quotes : QuoteState) (t : Text) : Prop :=
  ∃ u rest parens' quotes', t = u ++ rest ∧ ArgumentWalk parens quotes u parens' quotes' ∧
    SearchEnd parens' quotes' rest

namespace Walkable

variable {parens parens₀ : Nat} {quotes quotes₀ : QuoteState} {t : Text}

theorem of_searchEnd (h : SearchEnd parens quotes t) : Walkable parens quotes t :=
  ⟨[], t, parens, quotes, rfl, .nil, h⟩

/-- What can be walked behind a unit can be walked with it. -/
theorem of_unit (w : Text)
    (hw : ∀ {u parens' quotes'}, ArgumentWalk parens quotes u parens' quotes' →
      ArgumentWalk parens₀ quotes₀ (w ++ u) parens' quotes')
    (h : Walkable parens quotes t) : Walkable parens₀ quotes₀ (w ++ t) := by
  obtain ⟨u, rest, parens', quotes', rfl, hwalk, hend⟩ := h
  exact ⟨w ++ u, rest, parens', quotes', (List.append_assoc w u rest).symm, hw hwalk, hend⟩

end Walkable

/-- Every argument list can be walked up to the end of the search. -/
theorem walkable (parens : Nat) (quotes : QuoteState) (t : Text) : Walkable parens quotes t := by
  -- By induction on the length: behind a block the walk goes on with the text after it.
  induction hn : t.length using Nat.strongRecOn generalizing parens quotes t with
  | ind n ih =>
      subst hn
      cases t with
      | nil => exact .of_searchEnd .ended
      | cons c t =>
          have htail (parens : Nat) (quotes : QuoteState) : Walkable parens quotes t :=
            ih t.length (by simp) parens quotes t rfl
          by_cases hc : quotes.inCode → ¬ isArgumentMark c
          · exact (htail parens (quotes.step c)).of_unit [c] (.char hc)
          · rw [Classical.not_imp, Classical.not_not] at hc
            obtain ⟨hcode, hmark⟩ := hc
            obtain rfl := QuoteState.inCode_iff.mp hcode
            simp only [isArgumentMark, Bool.or_eq_true, beq_iff_eq] at hmark
            rcases hmark with ((rfl | rfl) | rfl) | rfl
            · exact (htail (parens + 1) .code).of_unit ['('] .openParen
            · match parens with
              | 0 => exact .of_searchEnd (.closed (Nat.zero_le 1))
              | 1 => exact .of_searchEnd (.closed (Nat.le_refl 1))
              | k + 2 => exact (htail (k + 1) .code).of_unit [')'] .closeParen
            · cases hclose : closeBlock t with
              | error s => exact .of_searchEnd (.unclosed hclose)
              | ok parts =>
                  obtain ⟨body, after⟩ := parts
                  obtain ⟨rfl, hbody⟩ := closeBlock_eq_ok_iff.mp hclose
                  by_cases hparens : parens = 1
                  · subst hparens
                    exact .of_searchEnd (.handler hbody)
                  · have hafter : Walkable parens .code after :=
                      ih after.length (by simp; omega) parens .code after rfl
                    rw [Text.braces_append]
                    refine hafter.of_unit _ ?_
                    intro u' parens' quotes' hwalk
                    rw [← Text.braces_append]
                    exact .block hparens hbody hwalk
            · exact (htail parens .code).of_unit ['}'] .strayBrace

/-! ### What the search answers -/

theorem handlerFrom_closed {parens : Nat} (h : parens ≤ 1) (passed t : Text) :
    handlerFrom parens ⟨.code, 0⟩ passed (')' :: t) = .ok none := by
  rw [handlerFrom_code, if_neg (by decide), if_pos rfl, if_pos h]

theorem handlerFrom_handler {body : Text} (hbody : body.IsBalanced) (passed rest : Text) :
    handlerFrom 1 ⟨.code, 0⟩ passed ('{' :: (body ++ '}' :: rest)) =
      .ok (some ⟨passed.reverse, body, rest⟩) := by
  have hclose : closeBlock (body ++ '}' :: rest) = .ok (body, rest) :=
    closeBlock_eq_ok_iff.mpr ⟨rfl, hbody⟩
  rw [handlerFrom_code, if_neg (by decide), if_neg (by decide), if_pos rfl, hclose]
  rfl

theorem handlerFrom_unclosed {parens : Nat} {t : Text} {s : BraceState}
    (hs : closeBlock t = .error s) (passed : Text) :
    handlerFrom parens ⟨.code, 0⟩ passed ('{' :: t) =
      .error ((unclosedBlock s t).shift (Text.byteSize passed)) := by
  rw [handlerFrom_code, if_neg (by decide), if_neg (by decide), if_pos rfl, hs]

/-- The search for the handler of a call, told by the walk to its end. -/
theorem handler?_of_walk {u rest : Text} {parens : Nat} {quotes : QuoteState}
    (h : ArgumentWalk 0 .code u parens quotes) :
    handler? (u ++ rest) = handlerFrom parens ⟨quotes, 0⟩ u.reverse rest := by
  have hsearch := isArgumentScan_handlerFrom.append_walk h [] rest
  rw [List.append_nil] at hsearch
  exact hsearch

/-- The handler of a call is the block behind a walk that leads inside exactly one parenthesis. -/
theorem handler?_eq_some_iff {args : Text} {h : Handler} :
    handler? args = .ok (some h) ↔
      args = h.args ++ (h.block ++ h.rest) ∧ ArgumentWalk 0 .code h.args 1 .code ∧
        h.body.IsBalanced := by
  constructor
  · intro hsome
    obtain ⟨u, rest, parens, quotes, rfl, hwalk, hend⟩ := walkable 0 .code args
    rw [handler?_of_walk hwalk] at hsome
    cases hend with
    | ended => cases hsome
    | closed hparens =>
        rw [handlerFrom_closed hparens] at hsome
        cases hsome
    | handler hbody =>
        rw [handlerFrom_handler hbody, List.reverse_reverse] at hsome
        cases hsome
        exact ⟨by simp [Handler.block], hwalk, hbody⟩
    | unclosed hs =>
        rw [handlerFrom_unclosed hs] at hsome
        cases hsome
  · intro hspec
    obtain ⟨hargs, hwalk, hbody⟩ := hspec
    have hblock : h.block ++ h.rest = '{' :: (h.body ++ '}' :: h.rest) :=
      (Text.braces_append h.body h.rest).symm
    rw [hargs, hblock, handler?_of_walk hwalk, handlerFrom_handler hbody, List.reverse_reverse]

/-- A fault of the search stands at a proper place of the argument list. -/
theorem handler?_fault_isPlace {args : Text} {f : Fault} (h : handler? args = .error f) :
    args.IsPlace f.offset := by
  obtain ⟨u, rest, parens, quotes, rfl, hwalk, hend⟩ := walkable 0 .code args
  rw [handler?_of_walk hwalk] at h
  cases hend with
  | ended => cases h
  | closed hparens =>
      rw [handlerFrom_closed hparens] at h
      cases h
  | handler hbody =>
      rw [handlerFrom_handler hbody] at h
      cases h
  | @unclosed _ t s hs =>
      rw [handlerFrom_unclosed hs] at h
      cases h
      simpa [Fault.shift] using (unclosedBlock_isPlace s t).append_left u

end ElementScript
