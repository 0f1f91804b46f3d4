import Mathlib.Data.List.Infix
import ElementScript.Proofs.Cut
import ElementScript.Proofs.Listener.Dispatcher
import ElementScript.Proofs.Scan.Ownership

/-!
# Lifting calls keeps braces in balance

The search for a handler, the walk to the end of its block and the end of a call each look at the
script in a way of their own. On a call whose handler stands in the block around it they agree with
the flat scanner: the invocation is balanced (`Cut.isBalanced_invocation`). Where the scanner comes
to it in code, it leaves it as it came (`Cut.run_invocation`), so cutting such invocations out of a
text changes neither where the scanner ends nor how low it gets on its way
(`Cut.run_source`, `Cut.staysAbove_source_iff`).
-/

namespace ElementScript

open BraceState

/-! ### Invocations -/

/-- The end of a call has nothing in it that means anything to the flat scanner. -/
theorem IsCallEnd.isBalanced {t : Text} (h : IsCallEnd t) : t.IsBalanced := by
  have hblanks {gap : Text} (hgap : ∀ c ∈ gap, Text.isBlank c) : gap.IsBalanced :=
    Text.isBalanced_of_isPlain fun c hc => Text.isPlain_of_isBlank (hgap c hc)
  have hcomma : Text.IsBalanced [','] := Text.isBalanced_of_all (by decide)
  have hparen : Text.IsBalanced [')'] := Text.isBalanced_of_all (by decide)
  have hsemicolon : Text.IsBalanced [';'] := Text.isBalanced_of_all (by decide)
  have hlead {lead : Text} (hlead : IsCallLead lead) : lead.IsBalanced := by
    cases hlead with
    | blanks hgap => exact hblanks hgap
    | comma hgap hgap' => exact (hblanks hgap).append (hcomma.append (hblanks hgap'))
  cases h with
  | missing => exact Text.isBalanced_nil
  | paren hl => exact (hlead hl).append hparen
  | semicolon hl hgap => exact (hlead hl).append (hparen.append ((hblanks hgap).append hsemicolon))

/-- The head of a call is as plain as its marker. -/
theorem Call.isBalanced_head {marker text : Text} {call : Call}
    (hplain : ∀ c ∈ marker, isPlain c) (hcall : callAt? marker text = some call) :
    call.head.IsBalanced := by
  obtain ⟨-, -, ⟨gap, hhead, hgap⟩, -⟩ := callAt?_eq_some_iff.mp hcall
  have hblanks : gap.IsBalanced :=
    Text.isBalanced_of_isPlain fun c hc => Text.isPlain_of_isBlank (hgap c hc)
  rw [hhead]
  exact (Text.isBalanced_of_isPlain hplain).append hblanks

namespace Cut

/-- The flat scanner, which is in state `s` where the call begins, reads the call as code, and on
the way from its parenthesis to the handler it meets no brace that closes a block which was opened
before the call. -/
def StaysInBlock (s : BraceState) (c : Cut) : Prop :=
  s.inCode ∧ (s.run c.call.head).StaysAbove s.depth c.handler.args

section Invocation

variable {marker text : Text} {s : BraceState} {c : Cut}

/-- An invocation whose handler stands in the block around it is balanced. -/
theorem isBalanced_invocation (hplain : ∀ c ∈ marker, isPlain c)
    (hcall : callAt? marker text = some c.call) (hh : handler? c.call.args = .ok (some c.handler))
    (hstays : (atDepth 0).StaysAbove 0 c.handler.args) : c.invocation.IsBalanced := by
  obtain ⟨-, hwalk, hbody⟩ := handler?_eq_some_iff.mp hh
  have hhead : c.call.head.IsBalanced := Call.isBalanced_head hplain hcall
  have hargs : c.handler.args.IsBalanced := ⟨hstays, hwalk.run_eq hstays⟩
  have hblock : c.handler.block.IsBalanced := hbody.braces
  have hend := (isCallEnd_splitCallEnd c.handler.rest).isBalanced
  exact ((hhead.append hargs).append hblock).append hend

/-- The scanner leaves such an invocation as it came to it, and is never lower in between. -/
theorem run_invocation (hplain : ∀ c ∈ marker, isPlain c)
    (hcall : callAt? marker text = some c.call) (hh : handler? c.call.args = .ok (some c.handler))
    (h : c.StaysInBlock s) : s.run c.invocation = s ∧ s.StaysAbove s.depth c.invocation := by
  obtain ⟨hcode, hstays⟩ := h
  have hs : s = atDepth s.depth := eq_atDepth_of_inCode hcode
  generalize s.depth = depth at hs hstays ⊢
  subst hs
  rw [(Call.isBalanced_head hplain hcall).run_atDepth] at hstays
  -- What the scanner meets does not depend on the depth at which it starts.
  have hshift := (staysAbove_depth_add (-depth)).mpr hstays
  rw [atDepth_add, Int.add_right_neg] at hshift
  have hbalanced := isBalanced_invocation hplain hcall hh hshift
  exact ⟨hbalanced.run_atDepth depth, hbalanced.staysAbove depth⟩

end Invocation

/-! ### All cuts of a script -/

/-- All calls that are cut out stay in their blocks; `s` is the state of the scanner at the start of
the text. -/
def StayInBlocks (s : BraceState) (cuts : List Cut) : Prop :=
  ∀ before c behind, cuts = before ++ c :: behind →
    c.StaysInBlock (s.run (source before ++ c.gap))

@[simp] theorem stayInBlocks_nil {s : BraceState} : StayInBlocks s [] := by
  intro before c behind hcuts
  simp at hcuts

theorem stayInBlocks_cons {s : BraceState} {c : Cut} {cuts : List Cut} :
    StayInBlocks s (c :: cuts) ↔
      c.StaysInBlock (s.run c.gap) ∧ StayInBlocks ((s.run c.gap).run c.invocation) cuts := by
  constructor
  · intro h
    refine ⟨h [] c cuts rfl, ?_⟩
    intro before d behind hcuts
    have hd := h (c :: before) d behind (congrArg (c :: ·) hcuts)
    rwa [source_cons, List.append_assoc, List.append_assoc, run_append, run_append] at hd
  · intro hspec before d behind hcuts
    obtain ⟨hhead, htail⟩ := hspec
    cases before with
    | nil =>
        obtain ⟨rfl, -⟩ := List.cons.inj hcuts
        exact hhead
    | cons e before =>
        obtain ⟨rfl, hcuts'⟩ := List.cons.inj hcuts
        rw [source_cons, List.append_assoc, List.append_assoc, run_append, run_append]
        exact htail before d behind hcuts'

end Cut

namespace CutsThrough

variable {marker t rest : Text} {cuts : List Cut} {s : BraceState}

/-- Each invocation that is cut out is a call with a handler. -/
theorem exists_call (h : CutsThrough marker t cuts rest) {c : Cut} (hc : c ∈ cuts) :
    (∃ text, callAt? marker text = some c.call) ∧ handler? c.call.args = .ok (some c.handler) := by
  induction h with
  | start => cases hc
  | cut huncalled hboundary hcall hhandler behind ih =>
      rcases List.mem_cons.mp hc with rfl | hc
      · exact ⟨⟨_, hcall⟩, hhandler⟩
      · exact ih hc

/-- The scanner ends in the same state whether the invocations are cut out or not. -/
theorem run_source (h : CutsThrough marker t cuts rest) (hplain : ∀ c ∈ marker, isPlain c)
    (hstay : Cut.StayInBlocks s cuts) : s.run (Cut.source cuts) = s.run (Cut.kept cuts) := by
  induction h generalizing s with
  | start => rfl
  | cut huncalled hboundary hcall hhandler behind ih =>
      obtain ⟨hhead, htail⟩ := Cut.stayInBlocks_cons.mp hstay
      obtain ⟨hrun, -⟩ := Cut.run_invocation hplain hcall hhandler hhead
      rw [hrun] at htail
      rw [Cut.source_cons, Cut.kept_cons, run_append, run_append, run_append, hrun, ih htail]

/-- It is as low with the invocations as it is without them. -/
theorem staysAbove_source_iff (h : CutsThrough marker t cuts rest)
    (hplain : ∀ c ∈ marker, isPlain c) (hstay : Cut.StayInBlocks s cuts) {floor : Int} :
    s.StaysAbove floor (Cut.source cuts) ↔ s.StaysAbove floor (Cut.kept cuts) := by
  induction h generalizing s with
  | start => rfl
  | @cut c after rest cuts huncalled hboundary hcall hhandler behind ih =>
      obtain ⟨hhead, htail⟩ := Cut.stayInBlocks_cons.mp hstay
      obtain ⟨hrun, hdepth⟩ := Cut.run_invocation hplain hcall hhandler hhead
      rw [hrun] at htail
      -- From where the gap ends, the invocation does not go down.
      have hinvocation (hgap : s.StaysAbove floor c.gap) :
          (s.run c.gap).StaysAbove floor c.invocation :=
        fun u hu => Int.le_trans (hgap c.gap (List.prefix_refl _)) (hdepth u hu)
      rw [Cut.source_cons, Cut.kept_cons, staysAbove_append, staysAbove_append, staysAbove_append,
        run_append, hrun, ih htail]
      constructor
      · intro hspec
        obtain ⟨⟨hgap, -⟩, hcuts⟩ := hspec
        exact ⟨hgap, hcuts⟩
      · intro hspec
        obtain ⟨hgap, hcuts⟩ := hspec
        exact ⟨⟨hgap, hinvocation hgap⟩, hcuts⟩

end CutsThrough

/-! ### Edits that make one cut -/

/-- Where something is replaced for the first time is seen from the edits. -/
theorem Edit.keepAll_replace_inj {a b old new old' new' : Text} {es es' : List Edit}
    (h : keepAll a ++ .replace old new :: es = keepAll b ++ .replace old' new' :: es') :
    a = b ∧ old = old' ∧ es = es' := by
  induction a generalizing b with
  | nil =>
      cases b with
      | nil =>
          cases h
          exact ⟨rfl, rfl, rfl⟩
      | cons c b => cases h
  | cons c a ih =>
      cases b with
      | nil => cases h
      | cons d b =>
          obtain ⟨hc, htail⟩ := List.cons.inj h
          cases hc
          obtain ⟨rfl, hrest⟩ := ih htail
          exact ⟨rfl, hrest⟩

/-- Edits that replace one text make one cut. -/
theorem CutsThrough.eq_singleton {marker t gap old behind rest : Text} {cuts : List Cut}
    (h : CutsThrough marker t cuts rest)
    (hedits : Edit.keepAll gap ++ .replace old [] :: Edit.keepAll behind =
      Cut.edits cuts ++ Edit.keepAll rest) :
    ∃ c, cuts = [c] ∧ c.gap = gap ∧ callAt? marker (old ++ behind) = some c.call ∧
      handler? c.call.args = .ok (some c.handler) := by
  have hkept (old t : Text) : Edit.replace old [] ∉ Edit.keepAll t := by simp [Edit.keepAll]
  cases h with
  | start =>
      have hmem : Edit.replace old [] ∈ Cut.edits [] ++ Edit.keepAll t := by
        rw [← hedits]
        exact List.mem_append_right _ List.mem_cons_self
      exact absurd hmem (hkept old t)
  | @cut c after _ cuts huncalled hboundary hcall hhandler hbehind =>
      rw [Cut.edits_cons, List.append_assoc, List.cons_append] at hedits
      obtain ⟨rfl, rfl, hrest⟩ := Edit.keepAll_replace_inj hedits
      cases hbehind with
      | start =>
          have hafter := congrArg Edit.output hrest
          simp only [Edit.output_keepAll, Cut.edits_nil, List.nil_append] at hafter
          rw [← hafter] at hcall
          exact ⟨c, rfl, rfl, hcall, hhandler⟩
      | @cut d =>
          have hmem : Edit.replace d.invocation [] ∈ Edit.keepAll behind := by simp [hrest]
          exact absurd hmem (hkept d.invocation behind)

/-! ### Both passes -/

/-- A pass lifts the calls of a marker out of a script by the edits. -/
inductive LiftsCalls (v : Vocabulary) (script : Text) : Text → List Edit → Prop where
  | listeners {x : LiftedListeners} (h : liftListeners v script = .ok x) :
      LiftsCalls v script v.listenerToken x.edits
  | loadHandler {x : LiftedLoadHandler} (h : liftLoadHandler v script = .ok x) :
      LiftsCalls v script v.loadHandlerMarker x.edits

/-- A script scans as closed: no brace closes what was not opened, and at the end no block and no
literal is open. -/
def Text.ScansAsClosed (t : Text) : Prop :=
  (atDepth 0).StaysAbove 0 t ∧ ((atDepth 0).run t).depth = 0 ∧ ((atDepth 0).run t).quote = none

/-- The handler of a call that is lifted is its last argument. -/
theorem LiftsCalls.exists_cuts_handlerLast {v : Vocabulary} {script marker : Text}
    {edits : List Edit} (h : LiftsCalls v script marker edits) :
    ∃ cuts last, CutsThrough marker script cuts last ∧
      edits = Cut.edits cuts ++ Edit.keepAll last ∧
      ∀ c ∈ cuts, strayArgument? c.handler.rest = none := by
  cases h with
  | @listeners x h =>
      obtain ⟨cuts, last, hcuts⟩ := listenerCuts_of_liftListeners h
      have hmade := hcuts.made.imp fun c l hl => And.intro hl.strayArgument?_eq_none hl
      obtain ⟨hlast, -⟩ := (List.forall₂_and_left cuts x.listeners).mp hmade
      exact ⟨cuts, last, hcuts.through, hcuts.edits, hlast⟩
  | loadHandler h => exact liftLoadHandler_cuts h

theorem LiftsCalls.exists_cuts {v : Vocabulary} {script marker : Text} {edits : List Edit}
    (h : LiftsCalls v script marker edits) :
    ∃ cuts last, CutsThrough marker script cuts last ∧
      edits = Cut.edits cuts ++ Edit.keepAll last := by
  obtain ⟨cuts, last, hcuts, hedits, -⟩ := h.exists_cuts_handlerLast
  exact ⟨cuts, last, hcuts, hedits⟩

/-- The scanner comes out of each call that is lifted as it came to it, if it reads the call as code
and the handler stands in the block around the call; it has not been lower in between. If this is so
for all calls, the scanner ends where it would have ended, and the script scans as closed if and
only if what is left of it does. -/
theorem liftsCalls_keep_balance {v : Vocabulary} {script marker : Text} {edits : List Edit}
    (hplain : ∀ c ∈ marker, isPlain c) (h : LiftsCalls v script marker edits) :
    ∃ cuts last, CutsThrough marker script cuts last ∧ script = Cut.source cuts ++ last ∧
      edits = Cut.edits cuts ++ Edit.keepAll last ∧
      (∀ before c behind, cuts = before ++ c :: behind →
        let s := (atDepth 0).run (Cut.source before ++ c.gap)
        c.StaysInBlock s → s.run c.invocation = s ∧ s.StaysAbove s.depth c.invocation) ∧
      (Cut.StayInBlocks (atDepth 0) cuts →
        (atDepth 0).run script = (atDepth 0).run (Edit.output edits) ∧
        (script.ScansAsClosed ↔ (Edit.output edits).ScansAsClosed)) := by
  obtain ⟨cuts, last, hcuts, rfl⟩ := h.exists_cuts
  have hscript := hcuts.eq_source_append
  refine ⟨cuts, last, hcuts, hscript, rfl, ?_, ?_⟩
  · intro before c behind hmem s hstays
    have hc : c ∈ cuts := by simp [hmem]
    obtain ⟨⟨text, hcall⟩, hhandler⟩ := hcuts.exists_call hc
    exact Cut.run_invocation hplain hcall hhandler hstays
  · intro hstay
    have hrun : (atDepth 0).run script =
        (atDepth 0).run (Edit.output (Cut.edits cuts ++ Edit.keepAll last)) := by
      rw [hscript, run_append, hcuts.run_source hplain hstay]
      simp
    have hstays : (atDepth 0).StaysAbove 0 script ↔
        (atDepth 0).StaysAbove 0 (Edit.output (Cut.edits cuts ++ Edit.keepAll last)) := by
      rw [hscript, staysAbove_append, hcuts.staysAbove_source_iff hplain hstay,
        hcuts.run_source hplain hstay, ← staysAbove_append]
      simp
    exact ⟨hrun, by rw [Text.ScansAsClosed, Text.ScansAsClosed, hrun, hstays]⟩

/-- A listener in a member of the script. -/
theorem memberListener_keeps_balance :
    ∃ x, liftListeners .standard
        "m() \x7b addChangeListener(\"a\", v => \x7b f(v); \x7d) \x7d".toList = .ok x ∧
      x.script = "m() \x7b  \x7d".toList ∧
      ∃ cuts last, x.edits = Cut.edits cuts ++ Edit.keepAll last ∧ cuts.length = 1 ∧
        Cut.StayInBlocks (atDepth 0) cuts ∧
        (Text.ScansAsClosed
            "m() \x7b addChangeListener(\"a\", v => \x7b f(v); \x7d) \x7d".toList ↔
          x.script.ScansAsClosed) := by
  have hx : liftListeners .standard
      "m() \x7b addChangeListener(\"a\", v => \x7b f(v); \x7d) \x7d".toList =
        .ok ⟨Edit.keepAll "m() \x7b ".toList ++
          .replace "addChangeListener(\"a\", v => \x7b f(v); \x7d)".toList [] ::
            Edit.keepAll " \x7d".toList,
          [⟨"a".toList, "f(newValue);".toList, none, some "v".toList⟩]⟩ := by rfl
  have hplain : ∀ c ∈ Vocabulary.standard.listenerToken, isPlain c :=
    List.all_eq_true.mp (by decide)
  obtain ⟨cuts, last, hcuts, -, hedits, -, hclosed⟩ :=
    liftsCalls_keep_balance hplain (.listeners hx)
  obtain ⟨⟨gap, call, handler⟩, rfl, rfl, hcall, hhandler⟩ := hcuts.eq_singleton hedits
  have hread : callAt? Vocabulary.standard.listenerToken
      ("addChangeListener(\"a\", v => \x7b f(v); \x7d)".toList ++ " \x7d".toList) =
        some ⟨"addChangeListener".toList, "(\"a\", v => \x7b f(v); \x7d) \x7d".toList⟩ := by
    decide +kernel
  obtain rfl := Option.some.inj (hread.symm.trans hcall)
  have hfound : handler? "(\"a\", v => \x7b f(v); \x7d) \x7d".toList =
      .ok (some ⟨"(\"a\", v => ".toList, " f(v); ".toList, ") \x7d".toList⟩) := by decide +kernel
  obtain rfl := Option.some.inj (Except.ok.inj (hfound.symm.trans hhandler))
  have hargs : ∀ u ∈ "(\"a\", v => ".toList.inits, 1 ≤ ((atDepth 1).run u).depth := by
    decide +kernel
  have hstays : (atDepth 1).StaysAbove 1 "(\"a\", v => ".toList :=
    fun u hu => hargs u ((List.mem_inits u _).mpr hu)
  have hgap : (atDepth 0).run "m() \x7b ".toList = atDepth 1 := by decide +kernel
  have hhead : (atDepth 1).run "addChangeListener".toList = atDepth 1 := by decide +kernel
  refine ⟨_, hx, rfl, _, last, hedits, rfl, ?_⟩
  refine ⟨?stay, (hclosed ?stay).2⟩
  refine Cut.stayInBlocks_cons.mpr ⟨?_, Cut.stayInBlocks_nil⟩
  rw [hgap]
  exact ⟨rfl, hhead.symm ▸ hstays⟩

end ElementScript
