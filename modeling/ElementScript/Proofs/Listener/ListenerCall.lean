import ElementScript.Proofs.Listener.Attribute

/-!
# Scripts of one listener call

A `ListenerCall` names its attribute first; what stands between the name and the handler block is
left open. As a script of its own, it makes the listener that its parameters say, or it fails
because they cannot be read (`ListenerCall.liftListeners_script`).
-/

namespace ElementScript

/-- A literal of inert characters is walked through. -/
theorem ArgumentWalk.cons_quoted {parens parens' : Nat} {quotes' : QuoteState} {u t : Text}
    {q : Char} (hq : Text.isQuote q) (hu : ∀ c ∈ u, isInert c)
    (rest : ArgumentWalk parens .code t parens' quotes') :
    ArgumentWalk parens .code (q :: (u ++ q :: t)) parens' quotes' := by
  have hmark : ¬ isArgumentMark q := by
    simp only [Text.isQuote, Bool.or_eq_true, beq_iff_eq] at hq
    rcases hq with (rfl | rfl) | rfl <;> decide
  refine .char (fun _ => hmark) ?_
  rw [QuoteState.code_step_quote hq]
  refine inert_append hu (QuoteState.isProper_literal hq) rfl (.char (fun _ => hmark) ?_)
  rw [QuoteState.literal_step_quote hq]
  exact rest

/-! ### The call -/

/-- A listener call that names its attribute first: the name, the text between it and the handler
block, and the body of that. -/
structure ListenerCall where
  observed : Text
  head : Text
  body : Text
  isAttributeName_observed : Listener.isAttributeName observed
  walk_head : ArgumentWalk 1 .code head 1 .code
  isBalanced_body : body.IsBalanced

namespace ListenerCall

variable (v : Vocabulary) (i : ListenerCall)

/-- The parenthesis and the attribute in its quotes. -/
def start : Text := '(' :: '\"' :: (i.observed ++ ['\"'])

/-- The call as a script. -/
def script : Text :=
  v.listenerToken ++ (i.start ++ (i.head ++ '\x7b' :: (i.body ++ ['\x7d', ')'])))

/-- The listener with the given parameters. -/
def listener (names : List Text) : Listener where
  observed := i.observed
  body := renameReferences (Listener.renames v (Listener.valueParams names)) (Text.trim i.body)
  oldParam? := (Listener.valueParams names).1
  newParam? := (Listener.valueParams names).2

/-- The stretch of the script that makes it: all of the script. -/
def found (names : List Text) : Found Listener := ⟨i.script v, [], i.listener v names⟩

/-- What comes of the script: the listener with the given parameters, or a fault behind the
attribute if they cannot be read. -/
def outcome : Option (List Text) → Except Fault LiftedListeners
  | some names => .ok ⟨[.replace (i.script v) []], [i.listener v names]⟩
  | none => .error
      ⟨.listenerParameters i.observed, Text.byteSize v.listenerToken + Text.byteSize i.start⟩

/-- What the script is read as. -/
def call : Call := ⟨v.listenerToken, i.start ++ (i.head ++ '\x7b' :: (i.body ++ ['\x7d', ')']))⟩

def handler : Handler := ⟨i.start ++ i.head, i.body, [')']⟩

variable {v}

theorem callAt?_script (hne : v.listenerToken ≠ []) :
    callAt? v.listenerToken (i.script v) = some (i.call v) := by
  have hgap : ∀ c ∈ ([] : Text), Text.isBlank c := List.forall_mem_nil _
  have hcall := callAt?_append hne hgap
    ('\"' :: (i.observed ++ '\"' :: (i.head ++ '\x7b' :: (i.body ++ ['\x7d', ')']))))
  simpa [script, call, start] using hcall

theorem walk_args : ArgumentWalk 0 .code (i.start ++ i.head) 1 .code := by
  have hinert : ∀ c ∈ i.observed, isInert c := fun c hc =>
    isInert_of_class (by decide) (by decide)
      ((Listener.isAttributeName_iff.mp i.isAttributeName_observed).2 c hc)
  have hwalk := ArgumentWalk.cons_quoted (q := '\"') rfl hinert i.walk_head
  simpa [start] using ArgumentWalk.openParen hwalk

theorem handler?_args : handler? (i.call v).args = .ok (some i.handler) := by
  refine handler?_eq_some_iff.mpr ⟨?_, i.walk_args, i.isBalanced_body⟩
  simp [call, handler, Handler.block]

/-- The first quoted name is the one that the call begins with. -/
theorem attribute?_args :
    Listener.attribute? ('\"' :: (i.observed ++ '\"' :: i.head)) = some (i.observed, i.head) := by
  have hname : Listener.attributeName? i.observed = some i.observed :=
    Listener.attributeName?_eq_some_iff.mpr ⟨[], [], by simp, List.forall_mem_nil _,
      List.forall_mem_nil _, i.isAttributeName_observed⟩
  have hat : Listener.attributeAt? ('\"' :: (i.observed ++ '\"' :: i.head)) =
      some (i.observed, i.head) :=
    Listener.attributeAt?_quoted rfl hname
  rw [Listener.attribute?_cons, hat]
  rfl

theorem ofCall_call : Listener.ofCall v (i.call v) =
    match Listener.parameters? i.head with
    | some names => .ok (i.found v names)
    | none => .error ⟨.listenerParameters i.observed,
        Text.byteSize v.listenerToken + Text.byteSize i.start⟩ := by
  have hinside : i.handler.args.drop 1 = '\"' :: (i.observed ++ '\"' :: i.head) := by
    simp [handler, start]
  have hstray : strayArgument? i.handler.rest = none := rfl
  have hend : splitCallEnd i.handler.rest = ([')'], []) := rfl
  have hparen : '('.utf8Size = 1 := by decide
  have hscript : (i.call v).head ++ i.handler.args ++ i.handler.block ++ [')'] = i.script v := by
    simp [call, handler, Handler.block, script]
  rw [Listener.ofCall, handler?_args]
  dsimp only
  rw [Listener.ofHandler, hstray, hinside]
  dsimp only
  rw [attribute?_args]
  dsimp only
  cases Listener.parameters? i.head with
  | some names =>
      dsimp only
      rw [hend, hscript]
      rfl
  | none =>
      simp only [call, start, Text.byteSize_append, Text.byteSize_cons, Text.byteSize_nil, hparen,
        Except.error.injEq, Fault.mk.injEq, true_and]
      omega

/-- The script makes the listener with the parameters that are read in front of the handler
block. -/
theorem liftListeners_script (hne : v.listenerToken ≠ []) :
    liftListeners v (i.script v) = i.outcome v (Listener.parameters? i.head) := by
  have hat : Listener.at? v (i.script v) = (Listener.ofCall v (i.call v)).map some := by
    rw [Listener.at?, callAt?_script i hne]
  rw [ofCall_call] at hat
  rw [liftListeners, listenerSteps, sweep_eq_sweepOn]
  cases hnames : Listener.parameters? i.head with
  | some names =>
      rw [hnames] at hat
      have hold : (i.found v names).old ≠ [] := by simp [found, script, hne]
      have hfound : Listener.at? v ((i.found v names).old ++ []) =
          .ok (some (i.found v names)) := by
        rw [List.append_nil]
        exact hat
      have hsweep := sweepOn_found (Listener.at? v) true hold hfound
      rw [List.append_nil] at hsweep
      exact congrArg _ hsweep
  | none =>
      rw [hnames] at hat
      obtain ⟨c, t, hscript⟩ : ∃ c t, i.script v = c :: t :=
        List.exists_cons_of_ne_nil (by simp [script, hne])
      rw [hscript] at hat ⊢
      rw [sweepOn_fault (Listener.at? v) true hat]
      rfl

end ListenerCall

end ElementScript
