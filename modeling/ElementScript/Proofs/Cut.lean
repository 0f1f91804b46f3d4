import Mathlib.Data.List.Forall2
import ElementScript.Proofs.PassEdits

/-!
# Cutting calls out of a script

A `Cut` is a call with its handler, and the text kept in front of it. A script is gone through from
left to right (`CutsThrough`): between two cuts stands uncalled text, which ends where a call may
begin, and each cut takes up its call, whole. Both passes that lift calls out of a script cut it in
this way. The listener pass cuts all calls, up to the end of the script or to the first one that
cannot be read (`liftListeners_cuts`); the load handler pass cuts the first one
(`liftLoadHandler_cuts`).
-/

namespace ElementScript

/-! ### Ends of calls -/

/-- What stands between a handler block and the parenthesis that closes the call. -/
inductive IsCallLead : Text → Prop where
  | blanks {gap : Text} (hgap : ∀ c ∈ gap, Text.isBlank c) : IsCallLead gap
  | comma {gap gap' : Text} (hgap : ∀ c ∈ gap, Text.isBlank c)
      (hgap' : ∀ c ∈ gap', Text.isBlank c) : IsCallLead (gap ++ ',' :: gap')

/-- The end of a call behind its handler block; a call that is not closed has none. -/
inductive IsCallEnd : Text → Prop where
  | missing : IsCallEnd []
  | paren {lead : Text} (hlead : IsCallLead lead) : IsCallEnd (lead ++ [')'])
  | semicolon {lead gap : Text} (hlead : IsCallLead lead) (hgap : ∀ c ∈ gap, Text.isBlank c) :
      IsCallEnd (lead ++ ')' :: (gap ++ [';']))

/-- What is split off behind a handler block is the end of a call. -/
theorem isCallEnd_splitCallEnd (t : Text) : IsCallEnd (splitCallEnd t).1 := by
  have hblanks (u : Text) : ∀ c ∈ Text.blanks u, Text.isBlank c :=
    fun c hc => Text.isBlank_of_mem_blanks hc
  unfold splitCallEnd
  split
  rename_i lead rest h
  have hlead : IsCallLead lead := by
    split at h
    · cases h
      exact .comma (hblanks t) (hblanks _)
    · cases h
      exact .blanks (hblanks t)
  split
  · split
    · exact .semicolon hlead (hblanks _)
    · exact .paren hlead
  · exact .missing

namespace IsCallLead

variable {lead : Text}

theorem splitCallEnd_paren (h : IsCallLead lead) : splitCallEnd (lead ++ [')']) =
    (lead ++ [')'], []) := by
  have hcomma : ¬ Text.isBlank ',' := by decide
  have hparen : ¬ Text.isBlank ')' := by decide
  have hnil : Text.trimStart [] = [] := rfl
  cases h with
  | blanks hgap =>
      simp [splitCallEnd, Text.trimStart_append_cons hgap hparen,
        Text.blanks_append_cons hgap hparen, hnil]
  | comma hgap hgap' =>
      simp [splitCallEnd, Text.trimStart_append_cons hgap hcomma,
        Text.blanks_append_cons hgap hcomma, Text.trimStart_append_cons hgap' hparen,
        Text.blanks_append_cons hgap' hparen, hnil]

theorem splitCallEnd_semicolon (h : IsCallLead lead) {gap : Text}
    (hblanks : ∀ c ∈ gap, Text.isBlank c) : splitCallEnd (lead ++ ')' :: (gap ++ [';'])) =
      (lead ++ ')' :: (gap ++ [';']), []) := by
  have hcomma : ¬ Text.isBlank ',' := by decide
  have hparen : ¬ Text.isBlank ')' := by decide
  have hsemicolon : ¬ Text.isBlank ';' := by decide
  cases h with
  | blanks hgap =>
      simp [splitCallEnd, Text.trimStart_append_cons hgap hparen,
        Text.blanks_append_cons hgap hparen, Text.trimStart_append_cons hblanks hsemicolon,
        Text.blanks_append_cons hblanks hsemicolon]
  | comma hgap hgap' =>
      simp [splitCallEnd, Text.trimStart_append_cons hgap hcomma,
        Text.blanks_append_cons hgap hcomma, Text.trimStart_append_cons hgap' hparen,
        Text.blanks_append_cons hgap' hparen, Text.trimStart_append_cons hblanks hsemicolon,
        Text.blanks_append_cons hblanks hsemicolon]

theorem strayArgument?_append (h : IsCallLead lead) (rest : Text) :
    strayArgument? (lead ++ ')' :: rest) = none := by
  have hcomma : ¬ Text.isBlank ',' := by decide
  have hparen : ¬ Text.isBlank ')' := by decide
  cases h with
  | blanks hgap =>
      rw [strayArgument?, Text.trimStart_append_cons hgap hparen]
      rfl
  | comma hgap hgap' =>
      simp only [strayArgument?, List.append_assoc, List.cons_append,
        Text.trimStart_append_cons hgap hcomma, Text.trimStart_append_cons hgap' hparen]

end IsCallLead

namespace IsCallEnd

variable {t : Text}

/-- The end of a call is split off whole. -/
theorem splitCallEnd_eq (h : IsCallEnd t) : splitCallEnd t = (t, []) := by
  cases h with
  | missing => rfl
  | paren hlead => exact hlead.splitCallEnd_paren
  | semicolon hlead hgap => exact hlead.splitCallEnd_semicolon hgap

/-- No argument stands in it. -/
theorem strayArgument?_eq_none (h : IsCallEnd t) : strayArgument? t = none := by
  cases h with
  | missing => rfl
  | paren hlead => exact hlead.strayArgument?_append []
  | semicolon hlead hgap => exact hlead.strayArgument?_append _

end IsCallEnd

/-! ### Cuts -/

/-- A call with its handler that is cut out of a text, and the text kept in front of it. -/
structure Cut where
  gap : Text
  call : Call
  handler : Handler

namespace Cut

/-- What is cut out: the call, up to its end behind the handler block. -/
def invocation (c : Cut) : Text := c.call.stretch c.handler

/-- The text that the cuts go over. -/
def source (cuts : List Cut) : Text := cuts.flatMap fun c => c.gap ++ c.invocation

/-- The text that the cuts keep. -/
def kept (cuts : List Cut) : Text := cuts.flatMap gap

/-- The edits that make the cuts. -/
def edits (cuts : List Cut) : List Edit :=
  cuts.flatMap fun c => Edit.keepAll c.gap ++ [.replace c.invocation []]

variable {c : Cut} {cuts : List Cut}

@[simp] theorem source_nil : source [] = [] := rfl

@[simp] theorem source_cons : source (c :: cuts) = c.gap ++ c.invocation ++ source cuts := rfl

@[simp] theorem kept_nil : kept [] = [] := rfl

@[simp] theorem kept_cons : kept (c :: cuts) = c.gap ++ kept cuts := rfl

@[simp] theorem edits_nil : edits [] = [] := rfl

@[simp] theorem edits_cons :
    edits (c :: cuts) = Edit.keepAll c.gap ++ .replace c.invocation [] :: edits cuts := by
  simp [edits]

@[simp] theorem output_edits : Edit.output (edits cuts) = kept cuts := by
  induction cuts with
  | nil => rfl
  | cons c cuts ih => simp [ih, Edit.after]

@[simp] theorem source_edits : Edit.source (edits cuts) = source cuts := by
  induction cuts with
  | nil => rfl
  | cons c cuts ih => simp [ih, Edit.before]

end Cut

/-- Going through the text `t` from left to right, one comes through the cuts and stands before
`rest`: every cut is a call at a boundary, the leftmost one behind the cut before it. -/
inductive CutsThrough (marker : Text) : Text → List Cut → Text → Prop where
  | start {t : Text} : CutsThrough marker t [] t
  | cut {c : Cut} {after rest : Text} {cuts : List Cut}
      (huncalled : Uncalled marker [] c.gap (c.invocation ++ after))
      (hboundary : endsAtBoundary c.gap)
      (hcall : callAt? marker (c.invocation ++ after) = some c.call)
      (hhandler : handler? c.call.args = .ok (some c.handler))
      (behind : CutsThrough marker after cuts rest) :
      CutsThrough marker (c.gap ++ (c.invocation ++ after)) (c :: cuts) rest

namespace CutsThrough

variable {marker t rest : Text} {cuts : List Cut}

/-- Nothing is lost between the cuts. -/
theorem eq_source_append (h : CutsThrough marker t cuts rest) : t = Cut.source cuts ++ rest := by
  induction h with
  | start => rfl
  | cut huncalled hboundary hcall hhandler behind ih => simp [ih]

end CutsThrough

/-! ### Invocations that stand alone -/

/-- The handler where its script ends with the invocation. -/
def Handler.alone (h : Handler) : Handler := { h with rest := (splitCallEnd h.rest).1 }

/-- The call where its script ends with the invocation. -/
def Call.alone (call : Call) (h : Handler) : Call :=
  { call with args := h.args ++ (h.block ++ h.alone.rest) }

section Alone

variable {marker text : Text} {call : Call} {h : Handler}

theorem callAt?_alone (hcall : callAt? marker text = some call)
    (hh : handler? call.args = .ok (some h)) :
    callAt? marker (call.stretch h) = some (call.alone h) := by
  have hargs := Handler.args_eq_cons hcall hh
  obtain ⟨hne, -, hhead, -⟩ := callAt?_eq_some_iff.mp hcall
  refine callAt?_eq_some_iff.mpr ⟨hne, ?_, hhead, h.args.drop 1 ++ (h.block ++ h.alone.rest), ?_⟩
  · simp [Call.stretch, Call.alone, Handler.alone]
  · rw [← List.cons_append, ← hargs]
    rfl

theorem handler?_alone (hh : handler? call.args = .ok (some h)) :
    handler? (call.alone h).args = .ok (some h.alone) := by
  obtain ⟨-, hwalk, hbody⟩ := handler?_eq_some_iff.mp hh
  exact handler?_eq_some_iff.mpr ⟨rfl, hwalk, hbody⟩

end Alone

/-! ### The listener pass -/

namespace Listener

variable {v : Vocabulary} {c : Cut} {l : Listener}

/-- The listener `l` is read from the call and the handler of the cut. -/
def IsMadeBy (v : Vocabulary) (c : Cut) (l : Listener) : Prop :=
  ofHandler v c.call c.handler = .ok ⟨c.invocation, [], l⟩

/-- No argument follows the handler of a listener. -/
theorem IsMadeBy.strayArgument?_eq_none (h : IsMadeBy v c l) :
    strayArgument? c.handler.rest = none := by
  cases hstray : strayArgument? c.handler.rest with
  | none => rfl
  | some n =>
      rw [IsMadeBy, ofHandler, hstray] at h
      cases h

/-- The invocation alone makes the same listener. -/
theorem IsMadeBy.at?_invocation (h : IsMadeBy v c l) {after : Text}
    (hcall : callAt? v.listenerToken (c.invocation ++ after) = some c.call)
    (hhandler : handler? c.call.args = .ok (some c.handler)) :
    at? v c.invocation = .ok (some ⟨c.invocation, [], l⟩) := by
  have hend := isCallEnd_splitCallEnd c.handler.rest
  have hstray := h.strayArgument?_eq_none
  -- What stands behind the end of the call has been looked at for another argument only.
  have halone : ofHandler v (c.call.alone c.handler) c.handler.alone =
      ofHandler v c.call c.handler := by
    simp only [ofHandler, Handler.alone, Handler.block, Call.alone, hend.strayArgument?_eq_none,
      hend.splitCallEnd_eq, hstray]
  rw [IsMadeBy, ← halone] at h
  unfold at? ofCall
  rw [Cut.invocation, callAt?_alone hcall hhandler]
  dsimp only
  rw [handler?_alone hhandler]
  dsimp only
  rw [h]
  rfl

theorem callAt?_eq_none_of_at? {text : Text} (h : at? v text = .ok none) :
    callAt? v.listenerToken text = none := by
  unfold at? at h
  split at h
  · assumption
  · obtain ⟨x, -, hx⟩ := map_eq_ok_iff.mp h
    cases hx

/-- A fault is found in a call only. -/
theorem at?_eq_error {text : Text} {f : Fault} (h : at? v text = .error f) :
    ∃ call, callAt? v.listenerToken text = some call ∧ ofCall v call = .error f := by
  unfold at? at h
  split at h
  · cases h
  · rename_i call hcall
    exact ⟨call, hcall, map_eq_error_iff.mp h⟩

end Listener

/-- What holds of every call that is cut out and the listener that it makes holds all through. -/
theorem CutsThrough.forall₂_of_made {v : Vocabulary} {t rest : Text} {cuts : List Cut}
    {listeners : List Listener} {R : Cut → Listener → Prop}
    (h : CutsThrough v.listenerToken t cuts rest)
    (hmade : List.Forall₂ (Listener.IsMadeBy v) cuts listeners)
    (hR : ∀ {c : Cut} {l : Listener} {after : Text},
      callAt? v.listenerToken (c.invocation ++ after) = some c.call →
      handler? c.call.args = .ok (some c.handler) → Listener.IsMadeBy v c l → R c l) :
    List.Forall₂ R cuts listeners := by
  induction h generalizing listeners with
  | start =>
      cases hmade
      exact .nil
  | cut huncalled hboundary hcall hhandler behind ih =>
      cases hmade with
      | cons hl hmade => exact .cons (hR hcall hhandler hl) (ih hmade)

/-- The cuts that make listeners do so alone as well. -/
theorem CutsThrough.forall₂_at? {v : Vocabulary} {t rest : Text} {cuts : List Cut}
    {listeners : List Listener} (h : CutsThrough v.listenerToken t cuts rest)
    (hmade : List.Forall₂ (Listener.IsMadeBy v) cuts listeners) :
    List.Forall₂ (fun c l => Listener.at? v c.invocation = .ok (some ⟨c.invocation, [], l⟩))
      cuts listeners :=
  h.forall₂_of_made hmade fun hcall hhandler hl => hl.at?_invocation hcall hhandler

/-- All listener calls of the text are cut out of it, and the listeners are those that they make. -/
structure ListenerCuts (v : Vocabulary) (t : Text) (x : LiftedListeners) (cuts : List Cut)
    (last : Text) : Prop where
  through : CutsThrough v.listenerToken t cuts last
  uncalled : Uncalled v.listenerToken [] last []
  edits : x.edits = Cut.edits cuts ++ Edit.keepAll last
  made : List.Forall₂ (Listener.IsMadeBy v) cuts x.listeners

/-- Behind cuts that make listeners, the next listener call of the text, in front of which `gap`
stands, has the fault `g`. -/
structure ListenerFault (v : Vocabulary) (t : Text) (f : Fault) (cuts : List Cut)
    (gap rest : Text) (call : Call) (g : Fault) : Prop where
  through : CutsThrough v.listenerToken t cuts (gap ++ rest)
  made : ∀ c ∈ cuts, ∃ l, Listener.IsMadeBy v c l
  uncalled : Uncalled v.listenerToken [] gap rest
  boundary : endsAtBoundary gap
  called : callAt? v.listenerToken rest = some call
  fault : Listener.ofCall v call = .error g
  place : f = g.shift (Text.byteSize (Cut.source cuts ++ gap))

/-- What comes of a sweep for listeners over `t`, with the text `p` kept in front of it. -/
def CutsOrFault (v : Vocabulary) (p t : Text) : Except Fault (List (Step Listener)) → Prop
  | .ok steps => ∃ cuts last,
      ListenerCuts v (p ++ t) ⟨Edit.keepAll p ++ Step.edits steps, Step.values steps⟩ cuts last
  | .error f => ∃ cuts gap rest call g,
      ListenerFault v (p ++ t) (f.shift (Text.byteSize p)) cuts gap rest call g

namespace CutsOrFault

variable {v : Vocabulary} {p t : Text} {r : Except Fault (List (Step Listener))}

/-- A character that the sweep keeps may count as kept in front of it. -/
theorem cons_keep {c : Char} (h : CutsOrFault v (p ++ [c]) t r) :
    CutsOrFault v p (c :: t) (resume [.keep c] c.utf8Size r) := by
  have htext : p ++ [c] ++ t = p ++ c :: t := by simp
  cases r with
  | ok steps =>
      obtain ⟨cuts, last, hcuts⟩ := h
      have hedits : Edit.keepAll (p ++ [c]) ++ Step.edits steps =
          Edit.keepAll p ++ Step.edits ([.keep c] ++ steps) := by
        simp [Edit.keepAll, Step.edits, Step.edit]
      rw [htext, hedits] at hcuts
      exact ⟨cuts, last, hcuts⟩
  | error f =>
      obtain ⟨cuts, gap, rest, call, g, hfault⟩ := h
      have hsize : Text.byteSize (p ++ [c]) = Text.byteSize p + c.utf8Size := by simp
      rw [htext, hsize, ← Fault.shift_shift] at hfault
      exact ⟨cuts, gap, rest, call, g, hfault⟩

/-- A call at a boundary behind uncalled text is the next cut. -/
theorem append_found {call : Call} {h : Handler} {l : Listener}
    (huncalled : Uncalled v.listenerToken [] p (call.stretch h ++ t)) (hboundary : endsAtBoundary p)
    (hcall : callAt? v.listenerToken (call.stretch h ++ t) = some call)
    (hh : handler? call.args = .ok (some h))
    (hl : Listener.ofHandler v call h = .ok ⟨call.stretch h, [], l⟩) (hr : CutsOrFault v [] t r) :
    CutsOrFault v p (call.stretch h ++ t)
      (resume [.found ⟨call.stretch h, [], l⟩] (Text.byteSize (call.stretch h)) r) := by
  have hmade : Listener.IsMadeBy v ⟨p, call, h⟩ l := hl
  cases r with
  | ok steps =>
      obtain ⟨cuts, last, hcuts⟩ := hr
      refine ⟨⟨p, call, h⟩ :: cuts, last, ⟨.cut (c := ⟨p, call, h⟩) huncalled hboundary hcall hh
        hcuts.through, hcuts.uncalled, ?_, .cons hmade hcuts.made⟩⟩
      have hedits : Step.edits steps = Cut.edits cuts ++ Edit.keepAll last := hcuts.edits
      change Edit.keepAll p ++ .replace (call.stretch h) [] :: Step.edits steps = _
      rw [hedits]
      simp [Cut.invocation]
  | error f =>
      obtain ⟨cuts, gap, rest, call', g, hfault⟩ := hr
      refine ⟨⟨p, call, h⟩ :: cuts, gap, rest, call', g,
        ⟨.cut (c := ⟨p, call, h⟩) huncalled hboundary hcall hh hfault.through,
          List.forall_mem_cons.mpr ⟨⟨l, hmade⟩, hfault.made⟩, hfault.uncalled, hfault.boundary,
          hfault.called, hfault.fault, ?_⟩⟩
      have hplace : f = g.shift (Text.byteSize (Cut.source cuts ++ gap)) := by
        rw [← hfault.place]
        exact (Fault.shift_zero f).symm
      rw [hplace]
      simp [Cut.invocation]

/-- A sweep for listeners cuts calls from left to right, up to the end or to the first one that has
a fault. -/
theorem of_swept {boundary : Bool} (h : Swept (Listener.at? v) true boundary t r)
    (hboundary : boundary = endsAtBoundary p) (huncalled : Uncalled v.listenerToken [] p t) :
    CutsOrFault v p t r := by
  induction h generalizing p with
  | nil =>
      refine ⟨[], p, ?_, huncalled, ?_, .nil⟩
      · rw [List.append_nil]
        exact .start
      · exact List.append_nil _
  | @keep _ c t _ hnone rest ih =>
      have hhere : endsAtBoundary p → callAt? v.listenerToken (c :: t) = none := by
        intro hp
        exact Listener.callAt?_eq_none_of_at? (hnone (hboundary.trans hp))
      refine (ih (endsAtBoundary_concat p c).symm ?_).cons_keep
      exact uncalled_append.mpr ⟨huncalled, uncalled_singleton.mpr hhere⟩
  | found hold hfound rest ih =>
      obtain ⟨call, h, hcall, hh, hl⟩ := Listener.at?_eq_some hfound
      obtain ⟨observed, args, names, -, -, rfl⟩ := Listener.ofHandler_eq_ok hl
      -- The place behind the stretch is a boundary, as the start of a text is.
      refine append_found huncalled hboundary.symm hcall hh hl (ih ?_ uncalled_nil)
      rw [stopBoundary, List.getLast?_eq_some_getLast hold]
      rfl
  | fault hfault =>
      obtain ⟨call, hcall, hof⟩ := Listener.at?_eq_error hfault
      exact ⟨[], p, _, call, _, ⟨.start, List.forall_mem_nil _, huncalled, hboundary.symm, hcall,
        hof, by simp⟩⟩

end CutsOrFault

/-- The listener pass cuts all listener calls out of the script, or it fails with the first that has
a fault. -/
theorem cutsOrFault_listenerSteps (v : Vocabulary) (script : Text) :
    CutsOrFault v [] script (listenerSteps v script) :=
  .of_swept (swept_listenerSteps v script) rfl uncalled_nil

theorem listenerCuts_of_liftListeners {v : Vocabulary} {script : Text} {x : LiftedListeners}
    (h : liftListeners v script = .ok x) : ∃ cuts last, ListenerCuts v script x cuts last := by
  obtain ⟨steps, hsteps, rfl⟩ := liftListeners_eq_ok h
  have hcuts := cutsOrFault_listenerSteps v script
  rw [hsteps] at hcuts
  exact hcuts

theorem listenerFault_of_liftListeners {v : Vocabulary} {script : Text} {f : Fault}
    (h : liftListeners v script = .error f) :
    ∃ cuts gap rest call g, ListenerFault v script f cuts gap rest call g := by
  have hfault := cutsOrFault_listenerSteps v script
  rw [liftListeners_eq_error h] at hfault
  obtain ⟨cuts, gap, rest, call, g, hg⟩ := hfault
  rw [Text.byteSize_nil, Fault.shift_zero] at hg
  exact ⟨cuts, gap, rest, call, g, hg⟩

/-- What is left where listeners are lifted is what stands between the calls, each call makes its
listener, alone as in the script, and no call is left between them. Where lifting fails, it comes
through calls that all make listeners, and the fault is that of the call which is next. -/
theorem liftListeners_cuts (v : Vocabulary) (script : Text) :
    match liftListeners v script with
    | .ok x => ∃ cuts last, ListenerCuts v script x cuts last ∧ script = Cut.source cuts ++ last ∧
        x.script = Cut.kept cuts ++ last ∧
        List.Forall₂ (fun c l => Listener.at? v c.invocation = .ok (some ⟨c.invocation, [], l⟩))
          cuts x.listeners
    | .error f => ∃ cuts gap rest call g, ListenerFault v script f cuts gap rest call g ∧
        script = Cut.source cuts ++ (gap ++ rest) := by
  cases hlift : liftListeners v script with
  | ok x =>
      obtain ⟨cuts, last, hcuts⟩ := listenerCuts_of_liftListeners hlift
      refine ⟨cuts, last, hcuts, hcuts.through.eq_source_append, ?_, ?_⟩
      · rw [LiftedListeners.script, hcuts.edits]
        simp
      · exact hcuts.through.forall₂_at? hcuts.made
  | error f =>
      obtain ⟨cuts, gap, rest, call, g, hg⟩ := listenerFault_of_liftListeners hlift
      exact ⟨cuts, gap, rest, call, g, hg, hg.through.eq_source_append⟩

/-! ### The load handler pass -/

/-- The first call of the load handler marker is cut out in front of `after`, and makes `x`. -/
structure LoadHandlerCut (v : Vocabulary) (script : Text) (x : LiftedLoadHandler) (c : Cut)
    (after : Text) : Prop where
  through : CutsThrough v.loadHandlerMarker script [c] after
  noArgument : strayArgument? c.handler.rest = none
  made : x = ⟨Cut.edits [c] ++ Edit.keepAll after, some (Text.trim c.handler.body),
    LoadHandler.countCalls v.loadHandlerMarker after⟩

theorem loadHandlerCut_of_liftLoadHandler {v : Vocabulary} {script : Text} {x : LiftedLoadHandler}
    (h : liftLoadHandler v script = .ok x) :
    x = ⟨Edit.keepAll script, none, 0⟩ ∨ ∃ c after, LoadHandlerCut v script x c after := by
  rcases liftLoadHandler_eq_ok h with
    rfl | ⟨before, call, hd, after, rfl, huncalled, hboundary, hcall, hh, hstray, rfl⟩
  · exact Or.inl rfl
  · refine Or.inr ⟨⟨before, call, hd⟩, after,
      .cut (c := ⟨before, call, hd⟩) huncalled hboundary hcall hh .start, hstray, ?_⟩
    simp [Cut.invocation]

/-- The load handler pass cuts out no call or one. -/
theorem liftLoadHandler_cuts {v : Vocabulary} {script : Text} {x : LiftedLoadHandler}
    (h : liftLoadHandler v script = .ok x) :
    ∃ cuts last, CutsThrough v.loadHandlerMarker script cuts last ∧
      x.edits = Cut.edits cuts ++ Edit.keepAll last ∧
      ∀ c ∈ cuts, strayArgument? c.handler.rest = none := by
  rcases loadHandlerCut_of_liftLoadHandler h with rfl | ⟨c, after, hcut⟩
  · exact ⟨[], script, .start, rfl, List.forall_mem_nil _⟩
  · refine ⟨[c], after, hcut.through, ?_, List.forall_mem_singleton.mpr hcut.noArgument⟩
    rw [hcut.made]

end ElementScript
