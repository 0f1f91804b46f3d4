import Mathlib.Data.List.TakeWhile
import ElementScript.Proofs.Cut.Balance

/-!
# Calls that are cut out before they are closed

A call with a handler is cut out up to the end of the call: blanks, perhaps a comma, and the closing
parenthesis. Nothing else is looked for behind the handler block, so where the handler is only the
beginning of the last argument, as in `v => {}.bind(this)`, the call is cut out up to its block and
the rest of it is left. `closing?` finds the parenthesis that closes a call by what stands in its
arguments, whatever that is. It goes through them as the search for a handler does
(`isArgumentScan_closingFrom`), but it does not stop at a handler. The parenthesis is reached if and
only if no expression goes on in front of it (`liftsCalls_reach_closing_iff`).
-/

namespace ElementScript

open BraceState

/-! ### The parenthesis that closes a call -/

/-- Walk on in an argument list inside `parens` open parentheses. Literals, escaped characters and
blocks are passed over, and so is a brace that closes a block from outside. `passed` holds the
characters so far, last one first. -/
def closingFrom (parens : Nat) (state : BraceState) (passed : Text) :
    Text → Option (Text × Text)
  | [] => none
  | c :: t =>
    if state.inCode && state.depth == 0 then
      if c = '(' then closingFrom (parens + 1) state (c :: passed) t
      else if c = ')' then
        if parens ≤ 1 then some (passed.reverse, t)
        else closingFrom (parens - 1) state (c :: passed) t
      else if c = '}' then closingFrom parens state (c :: passed) t
      else closingFrom parens (state.step c) (c :: passed) t
    else closingFrom parens (state.step c) (c :: passed) t

/-- The arguments of a call up to the parenthesis that closes it, and the text behind that. The text
begins with the opening parenthesis. -/
def closing? (args : Text) : Option (Text × Text) := closingFrom 0 (.atDepth 0) [] args

theorem closingFrom_eq_some {parens : Nat} {state : BraceState} {passed t inside after : Text}
    (h : closingFrom parens state passed t = some (inside, after)) :
    ∃ u, inside = passed.reverse ++ u ∧ t = u ++ ')' :: after := by
  induction t generalizing parens state passed with
  | nil => cases h
  | cons c t ih =>
      have hcons {parens : Nat} {state : BraceState}
          (h : closingFrom parens state (c :: passed) t = some (inside, after)) :
          ∃ u, inside = passed.reverse ++ u ∧ c :: t = u ++ ')' :: after := by
        obtain ⟨u, rfl, rfl⟩ := ih h
        exact ⟨c :: u, by simp, rfl⟩
      unfold closingFrom at h
      split at h
      · split at h
        · exact hcons h
        · split at h
          · rename_i hparen
            subst hparen
            split at h
            · cases h
              exact ⟨[], by simp, rfl⟩
            · exact hcons h
          · split at h <;> exact hcons h
      · exact hcons h

/-- In code, outside of any block of an argument, the next character decides. -/
theorem closingFrom_code (parens : Nat) (passed : Text) (c : Char) (t : Text) :
    closingFrom parens ⟨.code, 0⟩ passed (c :: t) =
      if c = '(' then closingFrom (parens + 1) ⟨.code, 0⟩ (c :: passed) t
      else if c = ')' then
        if parens ≤ 1 then some (passed.reverse, t)
        else closingFrom (parens - 1) ⟨.code, 0⟩ (c :: passed) t
      else if c = '}' then closingFrom parens ⟨.code, 0⟩ (c :: passed) t
      else closingFrom parens ((⟨.code, 0⟩ : BraceState).step c) (c :: passed) t := by
  have hcode : ((⟨.code, 0⟩ : BraceState).inCode && (⟨.code, 0⟩ : BraceState).depth == 0) = true :=
    rfl
  rw [closingFrom]
  exact if_pos hcode

/-- Whether a block is a handler makes no difference to the scan for the closing parenthesis. -/
theorem closingFrom_openBrace (parens : Nat) (passed t : Text) :
    closingFrom parens ⟨.code, 0⟩ passed ('{' :: t) =
      closingFrom parens (.atDepth 1) ('{' :: passed) t := by
  rw [closingFrom_code, if_neg (by decide), if_neg (by decide), if_neg (by decide)]
  rfl

theorem isArgumentScan_closingFrom : IsArgumentScan closingFrom where
  char {quotes c} hc parens passed t := by
    rw [closingFrom, BraceState.step_of_not_mark hc]
    by_cases hcode : quotes.inCode
    · have hmark := hc hcode
      simp only [isArgumentMark, Bool.or_eq_true, beq_iff_eq, not_or] at hmark
      obtain ⟨⟨⟨hopen, hclose⟩, -⟩, hbrace⟩ := hmark
      rw [if_neg hopen, if_neg hclose, if_neg hbrace, ite_self]
    · rw [if_neg (by simp [hcode])]
  inside hs parens passed c t := by rw [closingFrom, if_neg (by simp [hs])]
  openParen parens passed t := by rw [closingFrom_code, if_pos rfl]
  closeParen parens passed t := by
    rw [closingFrom_code, if_neg (by decide), if_pos rfl, if_neg (by omega)]
    rfl
  strayBrace parens passed t := by
    rw [closingFrom_code, if_neg (by decide), if_neg (by decide), if_pos rfl]
  openBrace hparens hbody passed t := closingFrom_openBrace _ passed _

/-! ### What stands in front of it -/

/-- An expression goes on in the text: it is not blank, and its first sign is no comma. -/
def Text.goesOn (t : Text) : Bool :=
  match trimStart t with
  | [] => false
  | c :: _ => c != ','

namespace IsCallLead

variable {lead : Text}

theorem isBlank_or_comma (h : IsCallLead lead) : ∀ c ∈ lead, Text.isBlank c || c == ',' := by
  have hblank {gap : Text} (hgap : ∀ c ∈ gap, Text.isBlank c) :
      ∀ c ∈ gap, Text.isBlank c || c == ',' :=
    fun c hc => Bool.or_eq_true_iff.mpr (Or.inl (hgap c hc))
  cases h with
  | blanks hgap => exact hblank hgap
  | comma hgap hgap' =>
      exact List.forall_mem_append.mpr
        ⟨hblank hgap, List.forall_mem_cons.mpr ⟨by decide, hblank hgap'⟩⟩

/-- Whatever is inside a call goes on in front of its end. -/
theorem argumentWalk (h : IsCallLead lead) (parens : Nat) :
    ArgumentWalk parens .code lead parens .code :=
  .of_isInert fun c hc => isInert_of_class (p := fun c => Text.isBlank c || c == ',') (by decide)
    (by decide) (h.isBlank_or_comma c hc)

/-- Behind it the call is closed. -/
theorem closingFrom_eq (h : IsCallLead lead) (passed t : Text) :
    closingFrom 1 ⟨.code, 0⟩ passed (lead ++ ')' :: t) = some (passed.reverse ++ lead, t) := by
  rw [isArgumentScan_closingFrom.append_walk (h.argumentWalk 1), closingFrom_code,
    if_neg (by decide), if_pos rfl, if_pos (Nat.le_refl 1)]
  simp

/-- The end of a call is split off with its parenthesis. -/
theorem prefix_splitCallEnd (h : IsCallLead lead) (t : Text) :
    lead ++ [')'] <+: (splitCallEnd (lead ++ ')' :: t)).1 := by
  have hcomma : ¬ Text.isBlank ',' := by decide
  have hparen : ¬ Text.isBlank ')' := by decide
  unfold splitCallEnd
  split
  rename_i lead' rest hread
  have hlead : lead = lead' ∧ ')' :: t = rest := by
    cases h with
    | blanks hgap =>
        rw [Text.trimStart_append_cons hgap hparen, Text.blanks_append_cons hgap hparen] at hread
        exact Prod.mk.inj hread
    | comma hgap hgap' =>
        rw [List.append_assoc, List.cons_append, Text.trimStart_append_cons hgap hcomma,
          Text.blanks_append_cons hgap hcomma] at hread
        obtain ⟨hfst, hsnd⟩ := Prod.mk.inj hread
        rw [Text.blanks_append_cons hgap' hparen] at hfst
        rw [Text.trimStart_append_cons hgap' hparen] at hsnd
        exact ⟨hfst, hsnd⟩
  obtain ⟨rfl, rfl⟩ := hlead
  split
  · rename_i u hu
    split
    · exact ⟨Text.blanks u ++ [';'], by simp⟩
    · exact List.prefix_refl _
  · rename_i hnone
    exact (hnone t rfl).elim

/-- No expression goes on in it. -/
theorem not_goesOn (h : IsCallLead lead) : ¬ lead.goesOn := by
  have hcomma : ¬ Text.isBlank ',' := by decide
  cases h with
  | blanks hgap =>
      have htrim : Text.trimStart lead = [] := List.dropWhile_eq_nil_iff.mpr hgap
      simp [Text.goesOn, htrim]
  | comma hgap hgap' => simp [Text.goesOn, Text.trimStart_append_cons hgap hcomma]

end IsCallLead

/-! ### What is reached -/

section Closed

variable {passed tail after : Text}
  (hclosed : closingFrom 1 ⟨.code, 0⟩ passed (tail ++ ')' :: after) =
    some (passed.reverse ++ tail, after))

include hclosed

/-- There is one parenthesis that closes a call. -/
theorem IsCallLead.eq_of_closingFrom {lead t : Text} (hlead : IsCallLead lead)
    (h : tail ++ ')' :: after = lead ++ ')' :: t) : tail = lead := by
  rw [h, hlead.closingFrom_eq, Option.some.injEq, Prod.mk.injEq] at hclosed
  exact (List.append_cancel_left hclosed.1).symm

/-- Where no other argument follows, only an expression that goes on keeps a call from its end. -/
theorem isCallLead_of_not_goesOn (hstray : strayArgument? (tail ++ ')' :: after) = none)
    (hends : ¬ tail.goesOn) : IsCallLead tail := by
  have hcomma : ¬ Text.isBlank ',' := by decide
  have hblank (t : Text) : ∀ c ∈ Text.blanks t, Text.isBlank c :=
    fun c hc => Text.isBlank_of_mem_blanks hc
  have htail := Text.blanks_append_trimStart tail
  rw [Text.goesOn] at hends
  split at hends
  · rename_i htrim
    rw [htrim, List.append_nil] at htail
    exact htail ▸ .blanks (hblank tail)
  · rename_i d u htrim
    obtain rfl : d = ',' := by simpa using hends
    rw [htrim] at htail
    -- Behind the comma a parenthesis stands, and this is the one that closes the call.
    have htext : tail ++ ')' :: after = Text.blanks tail ++ ',' :: (u ++ ')' :: after) := by
      conv_lhs => rw [← htail]
      simp
    simp only [strayArgument?, htext, Text.trimStart_append_cons (hblank tail) hcomma] at hstray
    split at hstray
    · rename_i v hv
      have hrest := Text.blanks_append_trimStart (u ++ ')' :: after)
      rw [hv] at hrest
      have hlead : IsCallLead (Text.blanks tail ++ ',' :: Text.blanks (u ++ ')' :: after)) :=
        .comma (hblank tail) (hblank _)
      have heq : tail = Text.blanks tail ++ ',' :: Text.blanks (u ++ ')' :: after) := by
        refine hlead.eq_of_closingFrom hclosed (t := v) ?_
        rw [htext, List.append_assoc, List.cons_append, hrest]
      rw [heq]
      exact hlead
    · cases hstray

/-- Where an expression goes on, nothing is split off. -/
theorem splitCallEnd_of_goesOn (hon : tail.goesOn) :
    (splitCallEnd (tail ++ ')' :: after)).1 = [] := by
  obtain ⟨t, ht⟩ := splitCallEnd_prefix (tail ++ ')' :: after)
  have hend := isCallEnd_splitCallEnd (tail ++ ')' :: after)
  have hnot {lead t : Text} (hlead : IsCallLead lead)
      (h : lead ++ ')' :: t = tail ++ ')' :: after) : False :=
    hlead.not_goesOn (hlead.eq_of_closingFrom hclosed h.symm ▸ hon)
  generalize (splitCallEnd (tail ++ ')' :: after)).1 = split at ht hend ⊢
  cases hend with
  | missing => rfl
  | paren hlead => exact (hnot hlead (by simpa using ht)).elim
  | semicolon hlead hgap => exact (hnot hlead (by simpa using ht)).elim

end Closed

/-- The call is cut out up to the parenthesis that closes it, or up to its handler block where an
expression goes on behind that. -/
theorem Cut.reaches_closing_iff {c : Cut} {inside after : Text}
    (hh : handler? c.call.args = .ok (some c.handler))
    (hstray : strayArgument? c.handler.rest = none)
    (hclosing : closing? c.call.args = some (inside, after)) :
    ∃ tail, inside = c.handler.args ++ c.handler.block ++ tail ∧
      (c.call.head ++ inside ++ [')'] <+: c.invocation ↔ ¬ tail.goesOn) ∧
      (tail.goesOn → c.invocation = c.call.head ++ c.handler.args ++ c.handler.block) := by
  obtain ⟨hargs, hwalk, hbody⟩ := handler?_eq_some_iff.mp hh
  have hsearch : closing? c.call.args =
      closingFrom 1 ⟨.code, 0⟩ (c.handler.args ++ c.handler.block).reverse c.handler.rest := by
    have hblock : c.handler.block ++ c.handler.rest =
        '{' :: (c.handler.body ++ '}' :: c.handler.rest) :=
      (Text.braces_append c.handler.body c.handler.rest).symm
    have hstart :=
      isArgumentScan_closingFrom.append_walk hwalk [] (c.handler.block ++ c.handler.rest)
    rw [hblock, closingFrom_openBrace, isArgumentScan_closingFrom.leavesBlock hbody, ← hblock,
      ← hargs, List.append_nil] at hstart
    rw [List.reverse_append]
    exact hstart
  rw [hsearch] at hclosing
  obtain ⟨tail, rfl, htail⟩ := closingFrom_eq_some hclosing
  rw [htail] at hclosing hstray
  rw [List.reverse_reverse]
  have hlength : c.call.head ++ (c.handler.args ++ c.handler.block ++ tail) ++ [')'] =
      c.call.head ++ c.handler.args ++ c.handler.block ++ (tail ++ [')']) := by simp
  have hreach : c.call.head ++ (c.handler.args ++ c.handler.block ++ tail) ++ [')'] <+:
      c.invocation ↔ tail ++ [')'] <+: (splitCallEnd (tail ++ ')' :: after)).1 := by
    rw [hlength, Cut.invocation, Call.stretch, htail, List.prefix_append_right_inj]
  rw [hreach]
  refine ⟨tail, rfl, ⟨?_, ?_⟩, ?_⟩
  · intro hprefix hon
    rw [splitCallEnd_of_goesOn hclosing hon] at hprefix
    simp at hprefix
  · intro hends
    exact (isCallLead_of_not_goesOn hclosing hstray hends).prefix_splitCallEnd after
  · intro hon
    rw [Cut.invocation, Call.stretch, htail, splitCallEnd_of_goesOn hclosing hon, List.append_nil]

/-! ### Both passes -/

/-- A call that is cut out is read in the script behind the cuts before it. -/
theorem CutsThrough.eq_source_call {marker t rest : Text} {cuts before behind : List Cut} {c : Cut}
    (h : CutsThrough marker t cuts rest) (hcuts : cuts = before ++ c :: behind) :
    t = Cut.source before ++ (c.gap ++ (c.call.head ++ c.call.args)) := by
  induction h generalizing before with
  | start => simp at hcuts
  | @cut d after rest cuts huncalled hboundary hcall hhandler hbehind ih =>
      cases before with
      | nil =>
          obtain ⟨rfl, -⟩ := List.cons.inj hcuts
          obtain ⟨-, htext, -, -⟩ := callAt?_eq_some_iff.mp hcall
          rw [htext]
          rfl
      | cons e before =>
          obtain ⟨rfl, htail⟩ := List.cons.inj hcuts
          rw [ih htail]
          simp

/-- A call with a parenthesis that closes it is lifted up to this parenthesis if and only if no
expression goes on behind its handler block. Where one does, the call is lifted up to the block, and
what stands between the block and the parenthesis is left of it. -/
theorem liftsCalls_reach_closing_iff {v : Vocabulary} {script marker : Text} {edits : List Edit}
    (h : LiftsCalls v script marker edits) :
    ∃ cuts last, CutsThrough marker script cuts last ∧
      edits = Cut.edits cuts ++ Edit.keepAll last ∧
      ∀ before c behind, cuts = before ++ c :: behind →
        script = Cut.source before ++ (c.gap ++ (c.call.head ++ c.call.args)) ∧
        ∀ inside after, closing? c.call.args = some (inside, after) →
          c.call.args = inside ++ ')' :: after ∧
          ∃ tail, inside = c.handler.args ++ c.handler.block ++ tail ∧
            (c.call.head ++ inside ++ [')'] <+: c.invocation ↔ ¬ tail.goesOn) ∧
            (tail.goesOn → c.invocation = c.call.head ++ c.handler.args ++ c.handler.block) := by
  obtain ⟨cuts, last, hcuts, hedits, hstray⟩ := h.exists_cuts_handlerLast
  refine ⟨cuts, last, hcuts, hedits, ?_⟩
  intro before c behind hmem
  have hc : c ∈ cuts := by simp [hmem]
  obtain ⟨-, hhandler⟩ := hcuts.exists_call hc
  refine ⟨hcuts.eq_source_call hmem, ?_⟩
  intro inside after hclosing
  obtain ⟨u, rfl, hargs⟩ := closingFrom_eq_some hclosing
  exact ⟨hargs, Cut.reaches_closing_iff hhandler (hstray c hc) hclosing⟩

/-- A handler that is bound. -/
theorem boundHandler_left_open :
    ∃ x, liftListeners .standard
        "addChangeListener(\"a\", v => \x7b f(v); \x7d.bind(this));".toList = .ok x ∧
      x.script = ".bind(this));".toList ∧
      ∃ cuts last, x.edits = Cut.edits cuts ++ Edit.keepAll last ∧
        ∃ c, cuts = [c] ∧
          closing? c.call.args =
            some ("(\"a\", v => \x7b f(v); \x7d.bind(this)".toList, ";".toList) ∧
          c.invocation = "addChangeListener(\"a\", v => \x7b f(v); \x7d".toList ∧
          ¬ "addChangeListener(\"a\", v => \x7b f(v); \x7d.bind(this))".toList <+:
            c.invocation := by
  have hx : liftListeners .standard
      "addChangeListener(\"a\", v => \x7b f(v); \x7d.bind(this));".toList =
        .ok ⟨Edit.keepAll [] ++
          .replace "addChangeListener(\"a\", v => \x7b f(v); \x7d".toList [] ::
            Edit.keepAll ".bind(this));".toList,
          [⟨"a".toList, "f(newValue);".toList, none, some "v".toList⟩]⟩ := by rfl
  obtain ⟨cuts, last, hcuts, hedits, hreach⟩ := liftsCalls_reach_closing_iff (.listeners hx)
  obtain ⟨⟨gap, call, handler⟩, rfl, rfl, hcall, hhandler⟩ := hcuts.eq_singleton hedits
  have hread : callAt? Vocabulary.standard.listenerToken
      ("addChangeListener(\"a\", v => \x7b f(v); \x7d".toList ++ ".bind(this));".toList) =
        some ⟨"addChangeListener".toList,
          "(\"a\", v => \x7b f(v); \x7d.bind(this));".toList⟩ := by
    decide +kernel
  obtain rfl := Option.some.inj (hread.symm.trans hcall)
  have hfound : handler? "(\"a\", v => \x7b f(v); \x7d.bind(this));".toList =
      .ok (some ⟨"(\"a\", v => ".toList, " f(v); ".toList, ".bind(this));".toList⟩) := by
    decide +kernel
  obtain rfl := Option.some.inj (Except.ok.inj (hfound.symm.trans hhandler))
  have hclosing : closing? "(\"a\", v => \x7b f(v); \x7d.bind(this));".toList =
      some ("(\"a\", v => \x7b f(v); \x7d.bind(this)".toList, ";".toList) := by decide +kernel
  obtain ⟨-, hspec⟩ := hreach [] _ [] rfl
  obtain ⟨-, tail, htail, hiff, hleft⟩ := hspec _ _ hclosing
  have hinside : "(\"a\", v => \x7b f(v); \x7d.bind(this)".toList =
      "(\"a\", v => ".toList ++ "\x7b f(v); \x7d".toList ++ ".bind(this)".toList := by
    decide +kernel
  obtain rfl := List.append_cancel_left (hinside.symm.trans htail)
  have hon : Text.goesOn ".bind(this)".toList := by decide +kernel
  refine ⟨_, hx, rfl, _, last, hedits, _, rfl, hclosing, hleft hon, ?_⟩
  intro hprefix
  exact hiff.mp hprefix hon

end ElementScript
