import ElementScript.Pass
import ElementScript.Proofs.Scan.ArgumentWalk
import ElementScript.Proofs.Scan.Leftmost
import ElementScript.Proofs.Scan.Sweep

/-!
# What passes have in common

Whatever a pass does, its edits are edits of the script it was given (`Pass.source_of_run`), and a
fault that it finds stands at a proper place of that script (`Pass.fault_isPlace_of_run`). Both come
down to calls: the stretch that a call takes up stands at the start of the text in which the call is
read, and its faults stand inside that text.
-/

namespace ElementScript

/-! ### Answers that are carried on -/

section Answers

variable {ε α β : Type} {g : α → β} {answer : Except ε α}

theorem map_eq_ok_iff {b : β} : answer.map g = .ok b ↔ ∃ a, answer = .ok a ∧ g a = b := by
  cases answer with
  | error e => simp [Except.map]
  | ok a => simp [Except.map]

theorem map_eq_error_iff {e : ε} : answer.map g = .error e ↔ answer = .error e := by
  cases answer with
  | error e' => simp [Except.map]
  | ok a => simp [Except.map]

end Answers

/-! ### The arguments of a listener -/

namespace Listener

/-- No character of an attribute name is blank. -/
theorem not_isBlank_of_isAttributePart {c : Char} (h : isAttributePart c) :
    ¬ Text.isBlank c := by
  simp only [isAttributePart, Bool.or_eq_true, beq_iff_eq] at h
  rcases h with (halphanum | rfl) | rfl
  · exact Text.not_isBlank_of_isAlphanum halphanum
  · decide
  · decide

/-- An attribute name is read off a literal that holds nothing else but blanks. -/
theorem attributeAt?_eq_some {t name rest : Text} (h : attributeAt? t = some (name, rest)) :
    ∃ q before after, t = q :: (before ++ (name ++ (after ++ q :: rest))) ∧ Text.isQuote q ∧
      (∀ c ∈ before, Text.isBlank c) ∧ (∀ c ∈ after, Text.isBlank c) ∧ name ≠ [] ∧
      ∀ c ∈ name, isAttributePart c := by
  cases t with
  | nil => cases h
  | cons q t =>
      rw [attributeAt?] at h
      by_cases hq : Text.isQuote q
      · rw [if_pos hq] at h
        dsimp only at h
        split at h
        · rename_i c after hafter
          split at h
          · rename_i hname
            cases h
            rw [Bool.and_eq_true, Bool.not_eq_true', beq_iff_eq] at hname
            obtain ⟨hnonempty, rfl⟩ := hname
            have hinner := Text.blanks_append_trimStart t
            have hcut := Text.blanks_append_trimStart
              ((Text.trimStart t).dropWhile isAttributePart)
            rw [hafter] at hcut
            refine ⟨c, Text.blanks t, Text.blanks ((Text.trimStart t).dropWhile isAttributePart),
              ?_, hq, fun d hd => Text.isBlank_of_mem_blanks hd,
              fun d hd => Text.isBlank_of_mem_blanks hd, fun hnil => ?_, ?_⟩
            · rw [hcut, List.takeWhile_append_dropWhile, hinner]
            · rw [hnil] at hnonempty
              cases hnonempty
            · exact fun d hd => List.all_eq_true.mp List.all_takeWhile d hd
          · cases h
        · cases h
      · rw [if_neg hq] at h
        cases h

/-- The attribute of a listener is read off some literal of the text. -/
theorem attribute?_eq_some {t name rest : Text} (h : attribute? t = some (name, rest)) :
    ∃ before after, t = before ++ after ∧ attributeAt? after = some (name, rest) := by
  induction t with
  | nil => cases h
  | cons c t ih =>
      rw [attribute?] at h
      split at h
      · rename_i found hfound
        cases h
        exact ⟨[], c :: t, rfl, hfound⟩
      · obtain ⟨before, after, rfl, hafter⟩ := ih h
        exact ⟨c :: before, after, rfl, hafter⟩

/-- What is left behind an attribute is the end of the text. -/
theorem attribute?_suffix {t name rest : Text} (h : attribute? t = some (name, rest)) :
    rest <:+ t := by
  obtain ⟨before, after, rfl, hafter⟩ := attribute?_eq_some h
  obtain ⟨q, gap, gap', rfl, -⟩ := attributeAt?_eq_some hafter
  exact ⟨before ++ q :: (gap ++ (name ++ (gap' ++ [q]))), by simp⟩

end Listener

/-! ### Calls with a handler -/

/-- What a call with a handler takes up of the script. -/
def Call.stretch (call : Call) (h : Handler) : Text :=
  call.head ++ h.args ++ h.block ++ (splitCallEnd h.rest).1

section Calls

variable {marker text : Text} {call : Call} {h : Handler}

theorem Call.stretch_prefix (hcall : callAt? marker text = some call)
    (hh : handler? call.args = .ok (some h)) : call.stretch h <+: text := by
  obtain ⟨-, rfl, -, -⟩ := callAt?_eq_some_iff.mp hcall
  obtain ⟨hargs, -, -⟩ := handler?_eq_some_iff.mp hh
  obtain ⟨rest, hrest⟩ := splitCallEnd_prefix h.rest
  refine ⟨rest, ?_⟩
  rw [hargs, Call.stretch, List.append_assoc, hrest]
  simp

theorem Call.stretch_ne_nil (hcall : callAt? marker text = some call) : call.stretch h ≠ [] := by
  have hhead := head_ne_nil_of_callAt? hcall
  simp [Call.stretch, hhead]

/-- The arguments of a handler begin with the parenthesis of the call. -/
theorem Handler.args_eq_cons (hcall : callAt? marker text = some call)
    (hh : handler? call.args = .ok (some h)) : h.args = '(' :: h.args.drop 1 := by
  obtain ⟨-, -, -, t, ht⟩ := callAt?_eq_some_iff.mp hcall
  obtain ⟨hargs, -, -⟩ := handler?_eq_some_iff.mp hh
  cases hcons : h.args with
  | nil =>
      rw [ht, hcons, Handler.block, List.nil_append, List.cons_append, List.cons.injEq] at hargs
      exact absurd hargs.1 (by decide)
  | cons c args =>
      rw [ht, hcons, List.cons_append, List.cons.injEq] at hargs
      rw [← hargs.1]
      rfl

/-- A fault of the search for a handler, seen from the start of the call. -/
theorem handlerFault_isPlace {f : Fault} (hcall : callAt? marker text = some call)
    (hf : handler? call.args = .error f) :
    text.IsPlace (f.shift (Text.byteSize call.head)).offset := by
  obtain ⟨-, rfl, -, -⟩ := callAt?_eq_some_iff.mp hcall
  exact (handler?_fault_isPlace hf).append_left call.head

/-- Another argument behind the handler, seen from the start of the call. -/
theorem strayArgument_isPlace {n : Nat} (hcall : callAt? marker text = some call)
    (hh : handler? call.args = .ok (some h)) (hn : strayArgument? h.rest = some n) :
    text.IsPlace (Text.byteSize call.head + Text.byteSize h.args + Text.byteSize h.block + n) := by
  obtain ⟨-, rfl, -, -⟩ := callAt?_eq_some_iff.mp hcall
  obtain ⟨hargs, -, -⟩ := handler?_eq_some_iff.mp hh
  have hplace := (strayArgument?_isPlace hn).append_left (call.head ++ (h.args ++ h.block))
  rw [hargs]
  simpa [Nat.add_assoc] using hplace

end Calls

/-! ### Listener calls -/

namespace Listener

variable {v : Vocabulary} {text : Text} {call : Call} {h : Handler}

/-- All that makes up a listener that is read. -/
theorem ofHandler_eq_ok {x : Found Listener} (hx : ofHandler v call h = .ok x) :
    ∃ observed rest names, attribute? (h.args.drop 1) = some (observed, rest) ∧
      parameters? rest = some names ∧ x = ⟨call.stretch h, [], observed,
        renameReferences (renames v (valueParams names)) (Text.trim h.body),
        (valueParams names).1, (valueParams names).2⟩ := by
  unfold ofHandler at hx
  dsimp only at hx
  split at hx
  · cases hx
  · split at hx
    · cases hx
    · rename_i observed rest hattribute
      split at hx
      · cases hx
      · rename_i names hnames
        cases hx
        exact ⟨observed, rest, names, hattribute, hnames, rfl⟩

theorem ofHandler_fault_isPlace {f : Fault} (hcall : callAt? v.listenerToken text = some call)
    (hh : handler? call.args = .ok (some h)) (hf : ofHandler v call h = .error f) :
    text.IsPlace f.offset := by
  have hargs := Handler.args_eq_cons hcall hh
  have hparen : '('.utf8Size = 1 := by decide
  -- The text up to a place inside the arguments, in front of which the parenthesis stands.
  have hinside (before rest : Text) (h' : h.args.drop 1 = before ++ rest) :
      text.IsPlace (Text.byteSize call.head + 1 + Text.byteSize before) := by
    obtain ⟨-, rfl, -, -⟩ := callAt?_eq_some_iff.mp hcall
    obtain ⟨hsplit, -, -⟩ := handler?_eq_some_iff.mp hh
    refine ⟨call.head ++ '(' :: before, rest ++ (h.block ++ h.rest), ?_, ?_⟩
    · rw [hsplit, hargs, h']
      simp
    · simp [hparen, Nat.add_assoc]
  unfold ofHandler at hf
  dsimp only at hf
  split at hf
  · rename_i extra hextra
    cases hf
    exact strayArgument_isPlace hcall hh hextra
  · split at hf
    · cases hf
      exact hinside [] _ rfl
    · rename_i observed rest hattribute
      obtain ⟨before, hbefore⟩ := attribute?_suffix hattribute
      split at hf
      · cases hf
        have hplace := hinside before rest hbefore.symm
        have hsize : Text.byteSize (h.args.drop 1) - Text.byteSize rest = Text.byteSize before := by
          rw [← hbefore, Text.byteSize_append]
          omega
        rw [hsize]
        exact hplace
      · cases hf

/-- All that makes up a listener that is found. -/
theorem at?_eq_some {x : Found Listener} (hx : at? v text = .ok (some x)) :
    ∃ call h, callAt? v.listenerToken text = some call ∧ handler? call.args = .ok (some h) ∧
      ofHandler v call h = .ok x := by
  unfold at? at hx
  split at hx
  · cases hx
  · rename_i call hcall
    obtain ⟨y, hof, hy⟩ := map_eq_ok_iff.mp hx
    cases hy
    unfold ofCall at hof
    split at hof
    · cases hof
    · cases hof
    · rename_i h hh
      exact ⟨call, h, hcall, hh, hof⟩

theorem at?_fault_isPlace (v : Vocabulary) (text : Text) (f : Fault) (hf : at? v text = .error f) :
    text.IsPlace f.offset := by
  unfold at? at hf
  split at hf
  · cases hf
  · rename_i call hcall
    have hof : ofCall v call = .error f := map_eq_error_iff.mp hf
    unfold ofCall at hof
    split at hof
    · rename_i g hg
      cases hof
      exact handlerFault_isPlace hcall hg
    · cases hof
      exact Text.isPlace_zero text
    · rename_i h hh
      exact ofHandler_fault_isPlace hcall hh hof

/-- Listeners are found where they are looked for. -/
theorem findsAtStart_at? (v : Vocabulary) : FindsAtStart (at? v) := by
  intro text x hx
  obtain ⟨call, h, hcall, hh, hof⟩ := at?_eq_some hx
  obtain ⟨observed, rest, names, -, -, rfl⟩ := ofHandler_eq_ok hof
  exact ⟨Call.stretch_ne_nil hcall, Call.stretch_prefix hcall hh⟩

end Listener

theorem swept_listenerSteps (v : Vocabulary) (script : Text) :
    Swept (Listener.at? v) true true script (listenerSteps v script) :=
  swept_sweepOn (Listener.findsAtStart_at? v) true true script

/-- Lifting succeeds where its sweep does. -/
theorem liftListeners_eq_ok {v : Vocabulary} {script : Text} {x : LiftedListeners}
    (h : liftListeners v script = .ok x) :
    ∃ steps, listenerSteps v script = .ok steps ∧ x = ⟨Step.edits steps, Step.values steps⟩ := by
  obtain ⟨steps, hsteps, rfl⟩ := map_eq_ok_iff.mp h
  exact ⟨steps, hsteps, rfl⟩

theorem source_of_liftListeners {v : Vocabulary} {script : Text} {x : LiftedListeners}
    (h : liftListeners v script = .ok x) : Edit.source x.edits = script := by
  obtain ⟨steps, hsteps, rfl⟩ := liftListeners_eq_ok h
  exact (swept_listenerSteps v script).source_edits hsteps

theorem liftListeners_eq_error {v : Vocabulary} {script : Text} {f : Fault}
    (h : liftListeners v script = .error f) : listenerSteps v script = .error f :=
  map_eq_error_iff.mp h

/-! ### Lifecycle markers -/

/-- Lifecycle markers are found where they are looked for. -/
theorem findsAtStart_lifecycleAt? (v : Vocabulary) :
    FindsAtStart fun text => .ok (lifecycleAt? v text) := by
  intro text x hx
  have hfound : lifecycleAt? v text = some x := Except.ok.inj hx
  obtain ⟨entry, -, hentry⟩ := List.exists_of_findSome?_eq_some hfound
  obtain ⟨call, hcall, rfl⟩ := Option.map_eq_some_iff.mp hentry
  obtain ⟨-, rfl, -, t, ht⟩ := callAt?_eq_some_iff.mp hcall
  exact ⟨by simp, t, by simp [ht]⟩

theorem swept_lifecycleSteps (v : Vocabulary) (script : Text) :
    Swept (fun text => .ok (lifecycleAt? v text)) false true script
      (.ok (lifecycleSteps v script)) := by
  have h := swept_sweepOn (findsAtStart_lifecycleAt? v) false true script
  rw [← sweep_eq_sweepOn, sweep_ok] at h
  exact h

@[simp] theorem source_lifecycleEdits (v : Vocabulary) (script : Text) :
    Edit.source (lifecycleEdits v script) = script :=
  (swept_lifecycleSteps v script).source_edits rfl

/-! ### The load handler -/

namespace LoadHandler

theorem ofCall_eq_ok {v : Vocabulary} {call : Call} {x : Found Text} (hx : ofCall v call = .ok x) :
    ∃ h, handler? call.args = .ok (some h) ∧ strayArgument? h.rest = none ∧
      x = ⟨call.stretch h, [], Text.trim h.body⟩ := by
  unfold ofCall at hx
  split at hx
  · cases hx
  · cases hx
  · rename_i h hh
    split at hx
    · cases hx
    · rename_i hstray
      cases hx
      exact ⟨h, hh, hstray, rfl⟩

theorem ofCall_fault_isPlace {v : Vocabulary} {text : Text} {call : Call} {f : Fault}
    (hcall : callAt? v.loadHandlerMarker text = some call) (hf : ofCall v call = .error f) :
    text.IsPlace f.offset := by
  unfold ofCall at hf
  split at hf
  · rename_i g hg
    cases hf
    exact handlerFault_isPlace hcall hg
  · cases hf
    exact Text.isPlace_zero text
  · rename_i h hh
    split at hf
    · rename_i extra hextra
      cases hf
      exact strayArgument_isPlace hcall hh hextra
    · cases hf

end LoadHandler

section LiftedLoadHandler

variable {v : Vocabulary} {script : Text}

/-- The load handler pass finds no call, or it cuts out the first one, with what belongs to it. -/
theorem liftLoadHandler_eq_ok {x : LiftedLoadHandler} (h : liftLoadHandler v script = .ok x) :
    x = ⟨Edit.keepAll script, none, 0⟩ ∨
      ∃ before call hd after, script = before ++ (Call.stretch call hd ++ after) ∧
        Uncalled v.loadHandlerMarker [] before (call.stretch hd ++ after) ∧ endsAtBoundary before ∧
        callAt? v.loadHandlerMarker (call.stretch hd ++ after) = some call ∧
        handler? call.args = .ok (some hd) ∧ strayArgument? hd.rest = none ∧
        x = ⟨Edit.keepAll before ++ .replace (call.stretch hd) [] :: Edit.keepAll after,
          some (Text.trim hd.body), LoadHandler.countCalls v.loadHandlerMarker after⟩ := by
  unfold liftLoadHandler at h
  split at h
  · cases h
    exact Or.inl rfl
  · rename_i before call hseek
    split at h
    · cases h
    · rename_i y hof
      cases h
      obtain ⟨rest, rfl, huncalled, hboundary, hcall⟩ := seekCall_leftmost_of_start hseek
      obtain ⟨hd, hh, hstray, rfl⟩ := LoadHandler.ofCall_eq_ok hof
      obtain ⟨after, rfl⟩ := Call.stretch_prefix hcall hh
      -- What the pass keeps behind the call is what its stretch leaves of the script.
      have hdrop : (before ++ (call.stretch hd ++ after)).drop
          (before.length + (call.stretch hd).length) = after := by
        rw [← List.append_assoc, ← List.length_append, List.drop_left]
      dsimp only
      rw [hdrop]
      exact Or.inr ⟨before, call, hd, after, rfl, huncalled, hboundary, hcall, hh, hstray, rfl⟩

/-- The load handler pass fails at the first call of the marker. -/
theorem liftLoadHandler_eq_error {f : Fault} (h : liftLoadHandler v script = .error f) :
    ∃ before rest call g, script = before ++ rest ∧
      Uncalled v.loadHandlerMarker [] before rest ∧ endsAtBoundary before ∧
      callAt? v.loadHandlerMarker rest = some call ∧ LoadHandler.ofCall v call = .error g ∧
      f = g.shift (Text.byteSize before) := by
  unfold liftLoadHandler at h
  split at h
  · cases h
  · rename_i before call hseek
    split at h
    · rename_i g hof
      cases h
      obtain ⟨rest, hscript, huncalled, hboundary, hcall⟩ := seekCall_leftmost_of_start hseek
      exact ⟨before, rest, call, g, hscript, huncalled, hboundary, hcall, hof, rfl⟩
    · cases h

theorem source_of_liftLoadHandler {x : LiftedLoadHandler} (h : liftLoadHandler v script = .ok x) :
    Edit.source x.edits = script := by
  rcases liftLoadHandler_eq_ok h with rfl | ⟨before, call, hd, after, rfl, -, -, -, -, -, rfl⟩
  · exact Edit.source_keepAll script
  · simp [Edit.before]

theorem liftLoadHandler_fault_isPlace {f : Fault} (h : liftLoadHandler v script = .error f) :
    script.IsPlace f.offset := by
  obtain ⟨before, rest, call, g, rfl, -, -, hcall, hof, rfl⟩ := liftLoadHandler_eq_error h
  exact (LoadHandler.ofCall_fault_isPlace hcall hof).append_left before

end LiftedLoadHandler

/-! ### All passes -/

namespace Pass

variable {v : Vocabulary} {script : Text} {harvest : Harvest} {pass : Pass}

/-- The edits of a pass are edits of the script that it was given. -/
theorem source_of_run {edits : List Edit} {harvest' : Harvest}
    (h : pass.run v script harvest = .ok (edits, harvest')) : Edit.source edits = script := by
  cases pass with
  | comments =>
      cases h
      exact source_commentEdits script
  | lifecycle =>
      cases h
      exact source_lifecycleEdits v script
  | changeListeners =>
      obtain ⟨x, hlift, hx⟩ := map_eq_ok_iff.mp h
      cases hx
      -- The dispatcher is written behind the script, over none of it.
      have hdispatcher : Edit.source (dispatcherEdits v x.listeners) = [] := by
        unfold dispatcherEdits
        split <;> rfl
      rw [Edit.source_append, source_of_liftListeners hlift, hdispatcher, List.append_nil]
  | loadHandler =>
      obtain ⟨x, hlift, hx⟩ := map_eq_ok_iff.mp h
      cases hx
      exact source_of_liftLoadHandler hlift

/-- A fault of a pass stands at a proper place of the script that it was given. -/
theorem fault_isPlace_of_run {f : Fault} (h : pass.run v script harvest = .error f) :
    script.IsPlace f.offset := by
  cases pass with
  | comments => cases h
  | lifecycle => cases h
  | changeListeners =>
      have hlift : liftListeners v script = .error f := map_eq_error_iff.mp h
      exact (swept_listenerSteps v script).fault_isPlace (Listener.at?_fault_isPlace v)
        (liftListeners_eq_error hlift)
  | loadHandler => exact liftLoadHandler_fault_isPlace (map_eq_error_iff.mp h)

end Pass

end ElementScript
