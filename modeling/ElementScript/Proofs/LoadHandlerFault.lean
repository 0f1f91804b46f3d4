import ElementScript.Proofs.Listener.DispatcherCalls
import ElementScript.Proofs.Stages
import ElementScript.Proofs.Words

/-!
# Where a load handler without block is reported

The load handler is looked for behind all other passes. A call of its marker that stood in the
script was kept in one piece by every pass, so the fault is reported where the marker stands
(`liftable_traced`). A call that stands in the dispatcher was moved there with the body of a
listener; the map takes all of the dispatcher for text that was put at the end of what listeners are
lifted out of, and where this leads back to, the fault is reported
(`compile_loadHandlerWithoutBlock`).
-/

namespace ElementScript

/-! ### Messages -/

/-- A string begins as its first part does. -/
theorem head?_toList_append {s t : String} {c : Char} (h : s.toList.head? = some c) :
    (s ++ t).toList.head? = some c := by
  rw [String.toList_append, List.head?_append, h]
  rfl

namespace Cause

/-- The report that a block is missing begins with the marker in back quotes. -/
theorem head?_loadHandlerWithoutBlock (word : Text) :
    (loadHandlerWithoutBlock word).message.toList.head? = some '\x60' :=
  head?_toList_append (head?_toList_append (by decide))

/-- No report that begins otherwise says the same. -/
theorem message_ne {cause : Cause} {c : Char} (h : cause.message.toList.head? = some c)
    (hc : c ≠ '\x60') (word : Text) : cause.message ≠ (loadHandlerWithoutBlock word).message := by
  intro heq
  rw [heq, head?_loadHandlerWithoutBlock] at h
  exact hc (Option.some.inj h).symm

/-- A block is open at the end of the script. -/
inductive IsOpenBlock : Cause → Prop where
  | literal (quote : Char) : IsOpenBlock (.unterminatedLiteral quote)
  | never (missing : Nat) : IsOpenBlock (.blockNeverClosed missing)

theorem IsOpenBlock.message_ne {cause : Cause} (h : cause.IsOpenBlock) (word : Text) :
    cause.message ≠ (loadHandlerWithoutBlock word).message := by
  cases h with
  | literal quote =>
      have hhead : (unterminatedLiteral quote).message.toList.head? = some 'U' :=
        head?_toList_append (head?_toList_append (by decide))
      exact Cause.message_ne hhead (by decide) word
  | never missing =>
      have hhead : "Block is never closed".toList.head? = some 'B' := by decide
      have hmessage : (blockNeverClosed missing).message.toList.head? = some 'B' := hhead
      exact Cause.message_ne hmessage (by decide) word

end Cause

/-- The search for a handler fails only at a block that is open at the end of the script. -/
theorem handler?_fault_isOpenBlock {args : Text} {f : Fault} (h : handler? args = .error f) :
    f.cause.IsOpenBlock := by
  obtain ⟨u, rest, parens, quotes, rfl, hwalk, hend⟩ := walkable 0 .code args
  rw [handler?_of_walk hwalk] at h
  cases hend with
  | ended => cases h
  | closed hparens =>
      rw [handlerFrom_closed hparens] at h
      cases h
  | handler hbody =>
      rw [handlerFrom_handler hbody] at h
      cases h
  | @unclosed _ t s hs =>
      rw [handlerFrom_unclosed hs] at h
      cases h
      unfold unclosedBlock
      split
      · exact .literal _
      · exact .never _

/-- The listener pass does not report that the load handler has no block. -/
theorem Listener.message_ne_of_ofCall {call : Call} {g : Fault}
    (h : ofCall .standard call = .error g) :
    g.cause.message ≠
      (Cause.loadHandlerWithoutBlock Vocabulary.standard.loadHandlerMarker).message := by
  have hhandler : (Cause.listenerWithoutHandler Vocabulary.standard.listenerToken).message ≠
      (Cause.loadHandlerWithoutBlock Vocabulary.standard.loadHandlerMarker).message := by
    decide +kernel
  have hextra : (Cause.listenerExtraArgument Vocabulary.standard.listenerToken).message ≠
      (Cause.loadHandlerWithoutBlock Vocabulary.standard.loadHandlerMarker).message := by
    decide +kernel
  have hattribute : (Cause.listenerWithoutAttribute Vocabulary.standard.listenerToken).message ≠
      (Cause.loadHandlerWithoutBlock Vocabulary.standard.loadHandlerMarker).message := by
    decide +kernel
  unfold ofCall at h
  split at h
  · rename_i f hf
    cases h
    exact (handler?_fault_isOpenBlock hf).message_ne _
  · cases h
    exact hhandler
  · unfold ofHandler at h
    dsimp only at h
    split at h
    · cases h
      exact hextra
    · split at h
      · cases h
        exact hattribute
      · rename_i observed rest _
        split at h
        · cases h
          have hhead : (Cause.listenerParameters observed).message.toList.head? = some 'C' :=
            head?_toList_append (head?_toList_append (by decide))
          exact Cause.message_ne hhead (by decide) _
        · cases h

/-- A call of the load handler marker that is reported to have no block is reported at its start. -/
theorem LoadHandler.offset_of_ofCall {call : Call} {g : Fault}
    (h : ofCall .standard call = .error g) (hmessage : g.cause.message =
      (Cause.loadHandlerWithoutBlock Vocabulary.standard.loadHandlerMarker).message) :
    g.offset = 0 := by
  have hextra : (Cause.loadHandlerExtraArgument Vocabulary.standard.loadHandlerMarker).message ≠
      (Cause.loadHandlerWithoutBlock Vocabulary.standard.loadHandlerMarker).message := by
    decide +kernel
  unfold ofCall at h
  split at h
  · rename_i f hf
    cases h
    exact absurd hmessage ((handler?_fault_isOpenBlock hf).message_ne _)
  · cases h
    rfl
  · split at h
    · cases h
      exact absurd hmessage hextra
    · cases h

/-! ### Tracing the marker -/

/-- A word that edits keep leads back to the same word of the source, whatever other edits stand
behind them. -/
theorem Edit.Separated.toSource_word {first : Char} {boundary : Bool} {edits : List Edit}
    {word before tail : Text} (h : Separated first boundary edits)
    (hword : ∀ c ∈ first :: word, ¬ Text.isBlank c)
    (houtput : output edits = before ++ (first :: word ++ tail)) (more : List Edit) :
    ∃ before' tail', source edits = before' ++ (first :: word ++ tail') ∧
      (SourceMap.ofEdits (edits ++ more)).toSource (Text.byteSize before) =
        Text.byteSize before' := by
  obtain ⟨es, fs, rfl, rfl⟩ := h.keeps_word hword houtput
  refine ⟨source es, source fs, by simp, ?_⟩
  have hplace := SourceMap.toSource_ofEdits_kept es (fs ++ more) [] (List.cons_ne_nil first word)
  simpa using hplace

section Tracing

variable {script before tail : Text}

/-- The marker is one word. -/
theorem not_isBlank_loadHandlerMarker : ∀ c ∈ ':' :: ":initialized".toList, ¬ Text.isBlank c :=
  not_isBlank_of_all (by decide)

/-- The marker of the script that listeners are lifted out of leads back to the marker of the
script. -/
theorem liftable_traced
    (h : liftable .standard script = before ++ (Vocabulary.standard.loadHandlerMarker ++ tail)) :
    ∃ before' tail', script = before' ++ (Vocabulary.standard.loadHandlerMarker ++ tail') ∧
      traceBack (liftableMaps .standard script) (Text.byteSize before) = Text.byteSize before' := by
  have hcallbacks : ∀ entry ∈ Vocabulary.standard.lifecycle, ':' ∉ entry.callback := by decide
  have hlifecycle := separated_lifecycleEdits hcallbacks (by decide) (withoutComments script)
  obtain ⟨b, a, hb, hplace⟩ := hlifecycle.toSource_word not_isBlank_loadHandlerMarker h []
  rw [source_lifecycleEdits] at hb
  have hcolon : ¬ Text.isBlank ':' := by decide
  obtain ⟨b', a', hb', hplace'⟩ :=
    (separated_commentEdits hcolon script).toSource_word not_isBlank_loadHandlerMarker hb []
  rw [source_commentEdits] at hb'
  rw [List.append_nil] at hplace hplace'
  refine ⟨b', a', hb', ?_⟩
  rw [liftableMaps, traceBack, List.foldl_cons, List.foldl_cons, List.foldl_nil, hplace, hplace']

/-- The marker of the members in front of the dispatcher leads back to the marker of the script. -/
theorem members_traced {x : LiftedListeners}
    (hx : liftListeners .standard (liftable .standard script) = .ok x)
    (h : x.script = before ++ (Vocabulary.standard.loadHandlerMarker ++ tail)) :
    ∃ before' tail', script = before' ++ (Vocabulary.standard.loadHandlerMarker ++ tail') ∧
      traceBack (.ofEdits (x.memberEdits .standard) :: liftableMaps .standard script)
        (Text.byteSize before) = Text.byteSize before' := by
  obtain ⟨cuts, last, hcuts⟩ := listenerCuts_of_liftListeners hx
  have hseparated : Edit.Separated ':' true x.edits := by
    rw [hcuts.edits]
    exact hcuts.through.separated_edits
  obtain ⟨b, a, hb, hplace⟩ := hseparated.toSource_word not_isBlank_loadHandlerMarker h
    (Pass.dispatcherEdits .standard x.listeners)
  rw [source_of_liftListeners hx] at hb
  obtain ⟨b', a', hscript, hplace'⟩ := liftable_traced hb
  refine ⟨b', a', hscript, ?_⟩
  rw [traceBack, List.foldl_cons, LiftedListeners.memberEdits, hplace]
  exact hplace'

end Tracing

/-! ### The position reported -/

/-- Behind what the listener pass leaves of the script, all places of the members lead back to where
the end of its script does. -/
theorem traceBack_dispatcher {script : Text} {x : LiftedListeners} {u w : Text}
    (hx : liftListeners .standard (liftable .standard script) = .ok x)
    (hbehind : Edit.output (Pass.dispatcherEdits .standard x.listeners) = u ++ w) (hw : w ≠ []) :
    traceBack (.ofEdits (x.memberEdits .standard) :: liftableMaps .standard script)
        (Text.byteSize (x.script ++ u)) =
      traceBack (liftableMaps .standard script) (Text.byteSize (liftable .standard script)) := by
  have hsource : Edit.source x.edits = liftable .standard script := source_of_liftListeners hx
  have hpos := Text.byteSize_pos hw
  rw [traceBack, List.foldl_cons, LiftedListeners.memberEdits]
  unfold Pass.dispatcherEdits at hbehind ⊢
  split at hbehind
  · simp [hw] at hbehind
  · rename_i hne
    have hsize := congrArg Text.byteSize hbehind
    rw [Edit.output_cons, Edit.output_nil, List.append_nil, Text.byteSize_append] at hsize
    rw [if_neg hne, SourceMap.toSource_ofEdits, hsource]
    · rfl
    · intro hnil
      rw [hnil] at hsize
      simp at hsize
      omega
    · rw [Text.byteSize_append]
      exact Nat.le_add_right _ _
    · refine Or.inl ?_
      rw [Text.byteSize_append, hsize, LiftedListeners.script]
      omega

/-- The first call of the load handler marker in the members stands in the script, to which its
place leads back; or else it stands in the dispatcher, and the script has none. -/
theorem firstCall_traced {script before rest : Text} {x : LiftedListeners} {call : Call}
    (hx : liftListeners .standard (liftable .standard script) = .ok x)
    (hmembers : x.members .standard = before ++ rest)
    (huncalled : Uncalled Vocabulary.standard.loadHandlerMarker [] before rest)
    (hboundary : endsAtBoundary before)
    (hcall : callAt? Vocabulary.standard.loadHandlerMarker rest = some call) :
    (∃ before' tail', script = before' ++ (Vocabulary.standard.loadHandlerMarker ++ tail') ∧
      traceBack (.ofEdits (x.memberEdits .standard) :: liftableMaps .standard script)
        (Text.byteSize before) = Text.byteSize before') ∨
    (CallSite.find? x.script 0 Vocabulary.standard.loadHandlerMarker false = none ∧
      (∃ l ∈ x.listeners, Vocabulary.standard.loadHandlerMarker <:+: l.body) ∧
      traceBack (.ofEdits (x.memberEdits .standard) :: liftableMaps .standard script)
          (Text.byteSize before) =
        traceBack (liftableMaps .standard script) (Text.byteSize (liftable .standard script))) := by
  have hforeign := Dispatcher.isForeign_loadHandlerMarker
  obtain ⟨-, -, ⟨blanks, hhead, -⟩, -⟩ := callAt?_eq_some_iff.mp hcall
  rw [LiftedListeners.members_eq] at hmembers
  rcases LiftedListeners.call_cases hforeign hx hmembers hboundary hcall with
    ⟨u, rfl, hbehind, l, hl, hinfix⟩ | ⟨w, args, hkept, hargs⟩
  · -- What calls the marker in the dispatcher is spelled out in a body.
    have hmarker : Vocabulary.standard.loadHandlerMarker <:+: call.head ++ ['('] :=
      ⟨[], blanks ++ ['('], by simp [hhead]⟩
    have hplace := traceBack_dispatcher hx hbehind (ne_nil_of_callAt? hcall)
    refine Or.inr ⟨?_, ⟨l, hl, hmarker.trans hinfix⟩, hplace⟩
    exact CallSite.find?_eq_none (uncalled_append.mp huncalled).1.of_append_after
  · -- A call in front of the dispatcher is one without it, so the marker stands there.
    obtain ⟨-, htext, -⟩ := callAt?_eq_some_iff.mp hargs
    rw [htext, hhead, List.append_assoc] at hkept
    exact Or.inl (members_traced hx hkept)

/-- A load handler that is reported to have no block is reported where its marker stands in the
script. Or else what listeners leave of the script calls no marker, but one stands in the body of a
listener, and it is reported where the end of what they were lifted out of leads back to. -/
theorem compile_loadHandlerWithoutBlock {script : Text} {d : Diagnostic}
    (h : compile script = .error d) (hmessage : d.message =
      (Cause.loadHandlerWithoutBlock Vocabulary.standard.loadHandlerMarker).message) :
    ∃ position, d.position? = some position ∧
      ((∃ before after, script = before ++ (Vocabulary.standard.loadHandlerMarker ++ after) ∧
          position.byte = Text.byteSize before) ∨
        ∃ x l, liftListeners .standard (liftable .standard script) = .ok x ∧
          CallSite.find? x.script 0 Vocabulary.standard.loadHandlerMarker false = none ∧
          l ∈ x.listeners ∧ Vocabulary.standard.loadHandlerMarker <:+: l.body ∧
          position.byte = traceBack (liftableMaps .standard script)
            (Text.byteSize (liftable .standard script))) := by
  rcases compile_eq_error h with ⟨size, limit, rfl⟩ | ⟨f, hrun, rfl⟩
  · have hhead : (Cause.scriptTooLarge size limit).message.toList.head? = some 'S' :=
      head?_toList_append (head?_toList_append (head?_toList_append
        (head?_toList_append (by decide))))
    exact absurd hmessage (Cause.message_ne hhead (by decide) _)
  · have hbyte : (Position.locate script f.offset).byte = f.offset :=
      Position.byte_locate_of_isPlace (fault_isPlace_of_runPasses hrun)
    refine ⟨Position.locate script f.offset, rfl, ?_⟩
    rw [hbyte]
    rcases runPasses_standard_eq_error hrun with ⟨g, hg, rfl⟩ | ⟨x, g, hx, hg, rfl⟩
    · obtain ⟨cuts, gap, rest, call, g', hfault⟩ := listenerFault_of_liftListeners hg
      have hne := Listener.message_ne_of_ofCall hfault.fault
      rw [hfault.place] at hmessage
      exact absurd hmessage hne
    · obtain ⟨before, rest, call, g', hmembers, huncalled, hboundary, hcall, hof, rfl⟩ :=
        liftLoadHandler_eq_error hg
      have hoffset : (g'.shift (Text.byteSize before)).offset = Text.byteSize before := by
        rw [Fault.shift, LoadHandler.offset_of_ofCall hof hmessage]
        exact Nat.add_zero _
      dsimp only
      rw [hoffset]
      rcases firstCall_traced hx hmembers huncalled hboundary hcall with
        hmarker | ⟨hnone, ⟨l, hl, hbody⟩, hplace⟩
      · exact Or.inl hmarker
      · exact Or.inr ⟨x, l, hx, hnone, hl, hbody, hplace⟩

/-- A marker that is moved with the body around it is reported at byte 50, where the script ends and
no marker stands. -/
theorem movedLoadHandler_position :
    ∃ d position x l,
      compile "addChangeListener(\"a\", v => \x7b ::initialized(v); \x7d)".toList = .error d ∧
      d.message =
        (Cause.loadHandlerWithoutBlock Vocabulary.standard.loadHandlerMarker).message ∧
      d.position? = some position ∧ position.byte = 50 ∧
      Text.byteSize "addChangeListener(\"a\", v => \x7b ::initialized(v); \x7d)".toList = 50 ∧
      liftListeners .standard (liftable .standard
        "addChangeListener(\"a\", v => \x7b ::initialized(v); \x7d)".toList) = .ok x ∧
      l ∈ x.listeners ∧ Vocabulary.standard.loadHandlerMarker <:+: l.body := by
  have hanswer : compile "addChangeListener(\"a\", v => \x7b ::initialized(v); \x7d)".toList =
      .error (.ofFault "addChangeListener(\"a\", v => \x7b ::initialized(v); \x7d)".toList
        ⟨.loadHandlerWithoutBlock Vocabulary.standard.loadHandlerMarker, 50⟩) := by
    decide +kernel
  have hsize : Text.byteSize
      "addChangeListener(\"a\", v => \x7b ::initialized(v); \x7d)".toList = 50 := by decide +kernel
  obtain ⟨position, hposition, hcases⟩ := compile_loadHandlerWithoutBlock hanswer rfl
  obtain rfl := Option.some.inj hposition
  have hbyte : (Position.locate
      "addChangeListener(\"a\", v => \x7b ::initialized(v); \x7d)".toList 50).byte = 50 := by
    decide +kernel
  rcases hcases with ⟨before, after, hscript, hbefore⟩ | ⟨x, l, hx, -, hl, hbody, -⟩
  · -- Behind the end of the script there is no room for the marker.
    have hmarker : Text.byteSize Vocabulary.standard.loadHandlerMarker = 13 := by decide +kernel
    have htotal := congrArg Text.byteSize hscript
    rw [hsize, Text.byteSize_append, Text.byteSize_append, hmarker] at htotal
    have hfifty : Text.byteSize before = 50 := hbefore.symm.trans hbyte
    omega
  · exact ⟨_, _, x, l, hanswer, rfl, rfl, hbyte, hsize, hx, hl, hbody⟩

end ElementScript
