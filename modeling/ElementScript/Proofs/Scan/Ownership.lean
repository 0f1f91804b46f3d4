import ElementScript.Proofs.Scan.ArgumentWalk
import ElementScript.Proofs.Scan.CallSite

/-!
# Whose block a handler is

A call stands in some block of the script, and its handler should stand there too. The search for
the handler passes over stray braces, so it can leave the block around a call that is never closed.
Along a walk the first stray brace is exactly where the flat scanner leaves the block
(`ArgumentWalk.staysOrLeaves`). Hence the handler that is found belongs to the call if and
only if it is found in the script cut off at the end of that block
(`handlerBlock_owned_iff`); in any other case the call is still open there, and has no handler.
-/

namespace ElementScript

/-! ### The end of the block around a place -/

/-- The text up to the first point at which the scan from the state is below zero. -/
def BraceState.stay (s : BraceState) : Text → Text
  | [] => []
  | c :: t => if (s.step c).depth < 0 then [] else c :: (s.step c).stay t

/-- The script up to the end of the block in which the place `n` stands. -/
def Text.throughBlock? (n : Nat) (script : Text) : Option Text :=
  (splitAt? n script).map fun parts => parts.1 ++ (BraceState.atDepth 0).stay parts.2

theorem BraceState.stay_append {s : BraceState} {u : Text} (h : s.StaysAbove 0 u) (t : Text) :
    s.stay (u ++ t) = u ++ (s.run u).stay t := by
  induction u generalizing s with
  | nil => rfl
  | cons c u ih =>
      obtain ⟨-, htail⟩ := staysAbove_cons.mp h
      have hpos : ¬ (s.step c).depth < 0 := Int.not_lt.mpr htail.le_depth
      rw [List.cons_append, stay, if_neg hpos, ih htail]
      rfl

/-- A brace that closes a block from outside ends the text. -/
theorem BraceState.stay_strayBrace (t : Text) : (atDepth 0).stay ('}' :: t) = [] := rfl

/-! ### Walks inside a block -/

namespace ArgumentWalk

variable {parens parens' : Nat} {quotes quotes' : QuoteState} {u : Text}

/-- A walk that stays inside the block is a scan. -/
theorem run_eq (h : ArgumentWalk parens quotes u parens' quotes')
    (hstays : (⟨quotes, 0⟩ : BraceState).StaysAbove 0 u) :
    (⟨quotes, 0⟩ : BraceState).run u = ⟨quotes', 0⟩ := by
  induction h with
  | nil => rfl
  | char hc rest ih =>
      rw [BraceState.staysAbove_cons, BraceState.step_of_not_mark hc] at hstays
      rw [BraceState.run_cons, BraceState.step_of_not_mark hc]
      exact ih hstays.2
  | openParen rest ih => exact ih (BraceState.staysAbove_cons.mp hstays).2
  | closeParen rest ih => exact ih (BraceState.staysAbove_cons.mp hstays).2
  | strayBrace rest ih =>
      have hneg : (0 : Int) ≤ -1 := (BraceState.staysAbove_cons.mp hstays).2.le_depth
      omega
  | @block _ _ _ body u hparens hbody rest ih =>
      have hblock : (⟨.code, 0⟩ : BraceState).run ('{' :: (body ++ ['}'])) = ⟨.code, 0⟩ :=
        hbody.braces.run_atDepth 0
      rw [Text.braces_append, BraceState.staysAbove_append, hblock] at hstays
      rw [Text.braces_append, BraceState.run_append, hblock]
      exact ih hstays.2

end ArgumentWalk

/-- The text stays inside the block, or it does so up to a stray brace to which a walk leads. -/
def StaysOrLeaves (parens : Nat) (quotes : QuoteState) (u : Text) : Prop :=
  (⟨quotes, 0⟩ : BraceState).StaysAbove 0 u ∨
    ∃ inside outside k, u = inside ++ '}' :: outside ∧ ArgumentWalk parens quotes inside k .code ∧
      (⟨quotes, 0⟩ : BraceState).StaysAbove 0 inside

/-- A unit that stays inside the block may be put in front. -/
theorem StaysOrLeaves.of_unit {parens parens₀ : Nat} {quotes quotes₀ : QuoteState} {u w : Text}
    (hw : ∀ {u parens' quotes'}, ArgumentWalk parens quotes u parens' quotes' →
      ArgumentWalk parens₀ quotes₀ (w ++ u) parens' quotes')
    (hstays : (⟨quotes₀, 0⟩ : BraceState).StaysAbove 0 w)
    (hrun : (⟨quotes₀, 0⟩ : BraceState).run w = ⟨quotes, 0⟩) (h : StaysOrLeaves parens quotes u) :
    StaysOrLeaves parens₀ quotes₀ (w ++ u) := by
  have happend {v : Text} (hv : (⟨quotes, 0⟩ : BraceState).StaysAbove 0 v) :
      (⟨quotes₀, 0⟩ : BraceState).StaysAbove 0 (w ++ v) :=
    BraceState.staysAbove_append.mpr ⟨hstays, hrun.symm ▸ hv⟩
  rcases h with hall | ⟨inside, outside, k, rfl, hwalk, hinside⟩
  · exact Or.inl (happend hall)
  · refine Or.inr ⟨w ++ inside, outside, k, ?_, hw hwalk, happend hinside⟩
    rw [List.append_assoc]

/-- A walk leaves the block at a stray brace only. -/
theorem ArgumentWalk.staysOrLeaves {parens parens' : Nat} {quotes quotes' : QuoteState} {u : Text}
    (h : ArgumentWalk parens quotes u parens' quotes') : StaysOrLeaves parens quotes u := by
  -- A single character that leaves the depth at zero never went below it.
  have hsingle {quotes quotes' : QuoteState} {c : Char}
      (hstep : (⟨quotes, 0⟩ : BraceState).step c = ⟨quotes', 0⟩) :
      (⟨quotes, 0⟩ : BraceState).StaysAbove 0 [c] := by
    rw [BraceState.staysAbove_cons, hstep, BraceState.staysAbove_nil]
    exact ⟨Int.le_refl 0, Int.le_refl 0⟩
  induction h with
  | nil => exact Or.inl (BraceState.staysAbove_nil.mpr (Int.le_refl 0))
  | char hc rest ih =>
      have hstep := BraceState.step_of_not_mark hc 0
      exact ih.of_unit (.char hc) (hsingle hstep) hstep
  | openParen rest ih => exact ih.of_unit .openParen (hsingle rfl) rfl
  | closeParen rest ih => exact ih.of_unit .closeParen (hsingle rfl) rfl
  | @strayBrace parens _ _ u rest ih =>
      exact Or.inr ⟨[], u, parens, rfl, .nil, BraceState.staysAbove_nil.mpr (Int.le_refl 0)⟩
  | @block _ _ _ body u hparens hbody rest ih =>
      have hrun : (⟨.code, 0⟩ : BraceState).run ('{' :: (body ++ ['}'])) = ⟨.code, 0⟩ :=
        hbody.braces.run_atDepth 0
      rw [Text.braces_append]
      refine ih.of_unit ?_ (hbody.braces.staysAbove 0) hrun
      intro u' parens' quotes' hwalk
      rw [← Text.braces_append]
      exact .block hparens hbody hwalk

/-! ### The handler of a call -/

/-- The handler block of a call is looked for in the text from its parenthesis on. -/
theorem CallSite.handlerBlock_append {site : CallSite} {pre : Text}
    (hparen : site.paren = Text.byteSize pre) (args : Text) :
    site.handlerBlock (pre ++ args) =
      match handler? args with
      | .error f => .error (f.shift site.paren)
      | .ok none => .ok none
      | .ok (some h) =>
        .ok (some (.ofBody site.start (site.paren + Text.byteSize h.args) h.body)) := by
  have hdrop : Text.dropBytes? site.paren (pre ++ args) = some (site.paren, args) := by
    rw [hparen]
    exact Text.dropBytes?_byteSize_append pre args
  cases hsearch : handler? args with
  | error f => simp only [handlerBlock, hdrop, hsearch]
  | ok h? =>
      cases h? with
      | none => simp only [handlerBlock, hdrop, hsearch]
      | some h => simp only [handlerBlock, hdrop, hsearch]

/-- The handler block of a call is that of the handler which is found in its arguments. -/
theorem CallSite.handlerBlock_eq_some {site : CallSite} {pre args : Text} {b : Block}
    (hparen : site.paren = Text.byteSize pre)
    (hb : site.handlerBlock (pre ++ args) = .ok (some b)) :
    ∃ h, handler? args = .ok (some h) ∧
      b = .ofBody site.start (site.paren + Text.byteSize h.args) h.body := by
  rw [handlerBlock_append hparen] at hb
  cases hh : handler? args with
  | error f =>
      rw [hh] at hb
      cases hb
  | ok h? =>
      rw [hh] at hb
      cases h? with
      | none => cases hb
      | some h =>
          cases hb
          exact ⟨h, rfl, rfl⟩

/-- Inside the block around a call, its handler is found if it stands there, and none is found if
the handler stands outside. -/
theorem handler?_stay {args : Text} {h : Handler} (hh : handler? args = .ok (some h)) :
    ((BraceState.atDepth 0).StaysAbove 0 h.args ∧
        ∃ rest, handler? ((BraceState.atDepth 0).stay args) = .ok (some ⟨h.args, h.body, rest⟩)) ∨
      (¬ (BraceState.atDepth 0).StaysAbove 0 h.args ∧
        handler? ((BraceState.atDepth 0).stay args) = .ok none) := by
  obtain ⟨hargs, hwalk, hbody⟩ := handler?_eq_some_iff.mp hh
  by_cases hstays : (BraceState.atDepth 0).StaysAbove 0 h.args
  · have hrun : (BraceState.atDepth 0).run h.args = .atDepth 0 := hwalk.run_eq hstays
    have hblock : h.block.IsBalanced := hbody.braces
    refine Or.inl ⟨hstays, (BraceState.atDepth 0).stay h.rest, ?_⟩
    rw [hargs, BraceState.stay_append hstays, hrun, BraceState.stay_append hblock.1, hblock.2]
    exact handler?_eq_some_iff.mpr ⟨rfl, hwalk, hbody⟩
  · -- The walk to the handler leaves the block, so the cut is at the stray brace on its way.
    rcases hwalk.staysOrLeaves with hall | ⟨inside, outside, k, hsplit, hinside, hstays'⟩
    · exact absurd hall hstays
    · have hstays₀ : (BraceState.atDepth 0).StaysAbove 0 inside := hstays'
      have hrun : (BraceState.atDepth 0).run inside = .atDepth 0 := hinside.run_eq hstays'
      have hcut : (BraceState.atDepth 0).stay args = inside := by
        rw [hargs, hsplit, List.append_assoc, BraceState.stay_append hstays₀, hrun,
          List.cons_append, BraceState.stay_strayBrace, List.append_nil]
      have hnone : handler? (inside ++ []) = .ok none := by
        rw [handler?_of_walk hinside]
        rfl
      refine Or.inr ⟨hstays, ?_⟩
      rw [hcut]
      simpa using hnone

/-- The handler block that is found for a call stands in the block around the call if and only if it
is found in the script up to the end of that block. Otherwise the call is open at that end and has
no handler, and the block that is found belongs to something behind it. -/
theorem handlerBlock_owned_iff {script marker : Text} {offset : Nat} {boundary : Bool}
    {site : CallSite} {b : Block} (hsite : CallSite.find? script offset marker boundary = some site)
    (hb : site.handlerBlock script = .ok (some b)) :
    ∃ args enclosed, Text.slice? site.paren b.opening script = some args ∧
      Text.throughBlock? site.paren script = some enclosed ∧
      ((BraceState.atDepth 0).StaysAbove 0 args ↔ site.handlerBlock enclosed = .ok (some b)) ∧
      (¬ (BraceState.atDepth 0).StaysAbove 0 args ↔ site.handlerBlock enclosed = .ok none) := by
  obtain ⟨before, call, rfl, -, -, hparen⟩ := CallSite.exists_of_find? hsite
  rw [← List.append_assoc] at hb ⊢
  obtain ⟨h, hh, rfl⟩ := CallSite.handlerBlock_eq_some hparen hb
  obtain ⟨hargs, -, -⟩ := handler?_eq_some_iff.mp hh
  have hslice : Text.slice? site.paren (site.paren + Text.byteSize h.args)
      (before ++ call.head ++ call.args) = some h.args := by
    rw [hparen, hargs]
    exact Text.slice?_byteSize_append ..
  have hthrough : Text.throughBlock? site.paren (before ++ call.head ++ call.args) =
      some (before ++ call.head ++ (BraceState.atDepth 0).stay call.args) := by
    rw [Text.throughBlock?, hparen, Text.splitAt?_byteSize_append, Option.map_some]
  refine ⟨h.args, _, hslice, hthrough, ?_⟩
  rw [CallSite.handlerBlock_append hparen]
  rcases handler?_stay hh with ⟨hstays, rest, hsome⟩ | ⟨hleaves, hnone⟩
  · rw [hsome]
    simp [hstays, Block.ofBody]
  · rw [hnone]
    simp [hleaves]

/-- The call of a member that forgets to close it: what it is given is the block of the next member,
and in its own member it has none. -/
theorem nextMember_not_owned :
    ∃ enclosed,
      Text.throughBlock? 23 "m() \x7b addChangeListener(\"a\", x \x7d n() \x7b y(); \x7d".toList =
        some enclosed ∧
      CallSite.handlerBlock "m() \x7b addChangeListener(\"a\", x \x7d n() \x7b y(); \x7d".toList
        ⟨6, 23⟩ = .ok (some ⟨6, 37, 45⟩) ∧
      CallSite.handlerBlock enclosed ⟨6, 23⟩ = .ok none := by
  have hsite : CallSite.find?
      "m() \x7b addChangeListener(\"a\", x \x7d n() \x7b y(); \x7d".toList 0
      "addChangeListener".toList false = some ⟨6, 23⟩ := by decide +kernel
  have hb : CallSite.handlerBlock
      "m() \x7b addChangeListener(\"a\", x \x7d n() \x7b y(); \x7d".toList ⟨6, 23⟩ =
        .ok (some ⟨6, 37, 45⟩) := by rfl
  obtain ⟨args, enclosed, hargs, henclosed, -, hnone⟩ := handlerBlock_owned_iff hsite hb
  refine ⟨enclosed, henclosed, hb, hnone.mp ?_⟩
  intro hstays
  obtain rfl : "(\"a\", x \x7d n() ".toList = args :=
    Option.some.inj (Eq.trans (by decide +kernel) hargs)
  have hprefix : "(\"a\", x \x7d".toList <+: "(\"a\", x \x7d n() ".toList := by decide
  have hbelow := hstays _ hprefix
  revert hbelow
  decide

end ElementScript
