import ElementScript.Proofs.Cut
import ElementScript.Proofs.Listener.DispatcherCalls
import ElementScript.Proofs.Stages

/-!
# Listener calls that survive

Listener calls are looked for once, in the text as it was before any of them was cut out. A call
that nevertheless stands in the members of the class is one of two kinds. It may lie across a cut,
where texts join up that stood apart (`CutsThrough.cut_in_call`). Or it was moved with the body of a
listener, which nothing looks into, and stands in the dispatcher (`calledIn_dispatcherMembers`).
There are no others (`compile_survives`).
-/

namespace ElementScript

/-! ### Places at which something was cut out -/

namespace Edit

/-- The edits cut a text out at the place `n` of what they leave. -/
def CutsAt (edits : List Edit) (n : Nat) : Prop :=
  ∃ es old fs, edits = es ++ .replace old [] :: fs ∧ old ≠ [] ∧ Text.byteSize (output es) = n

variable {fs : List Edit} {old : Text} {n : Nat}

theorem cutsAt_append (es fs : List Edit) (hold : old ≠ []) :
    CutsAt (es ++ .replace old [] :: fs) (Text.byteSize (output es)) :=
  ⟨es, old, fs, rfl, hold, rfl⟩

theorem CutsAt.append_left (h : CutsAt fs n) (es : List Edit) :
    CutsAt (es ++ fs) (Text.byteSize (output es) + n) := by
  obtain ⟨es', old, fs', rfl, hold, rfl⟩ := h
  exact ⟨es ++ es', old, fs', by simp, hold, by simp⟩

/-- The word that stands behind `before` in what the edits leave has a cut in it or right in front
of it. -/
def CutsWord (edits : List Edit) (before word : Text) : Prop :=
  ∃ n, CutsAt edits n ∧ Text.byteSize before ≤ n ∧ n < Text.byteSize (before ++ word)

/-- The word that stands behind `before` in what the edits leave was kept in one piece, and it stood
behind the same character. -/
def KeepsWord (edits : List Edit) (before word : Text) : Prop :=
  ∃ es fs, edits = es ++ (keepAll word ++ fs) ∧ output es = before ∧
    (source es).getLast? = before.getLast?

variable {before word : Text}

theorem keepsWord_keepAll (before word tail : Text) (fs : List Edit) :
    KeepsWord (keepAll (before ++ (word ++ tail)) ++ fs) before word := by
  refine ⟨keepAll before, keepAll tail ++ fs, ?_, output_keepAll before, ?_⟩
  · simp [keepAll]
  · rw [source_keepAll]

/-- The words behind a cut are kept as they were before it. -/
theorem KeepsWord.behind_cut (h : KeepsWord fs before word) (hbefore : before ≠ [])
    (gap old : Text) : KeepsWord (keepAll gap ++ .replace old [] :: fs) (gap ++ before) word := by
  obtain ⟨es, fs, rfl, houtput, hlast⟩ := h
  refine ⟨keepAll gap ++ .replace old [] :: es, fs, by simp, by simp [houtput, Edit.after], ?_⟩
  have hsource : source (keepAll gap ++ .replace old [] :: es) = gap ++ old ++ source es := by
    simp [Edit.before]
  rw [hsource, List.getLast?_append, List.getLast?_append, List.getLast?_append, hlast,
    List.getLast?_eq_some_getLast hbefore]
  rfl

theorem CutsWord.behind_cut (h : CutsWord fs before word) (gap old : Text) :
    CutsWord (keepAll gap ++ .replace old [] :: fs) (gap ++ before) word := by
  obtain ⟨n, hn, hle, hlt⟩ := h
  have hcut := hn.append_left (keepAll gap ++ [.replace old []])
  refine ⟨Text.byteSize gap + n, by simpa [Edit.after] using hcut, ?_, ?_⟩
  · rw [Text.byteSize_append]
    omega
  · rw [List.append_assoc, Text.byteSize_append]
    omega

/-- A cut right in front of a word, or in it. -/
theorem cutsWord_of_cut (gap p : Text) (fs : List Edit) (hold : old ≠ []) {q : Text}
    (hq : q ≠ []) : CutsWord (keepAll (gap ++ p) ++ .replace old [] :: fs) gap (p ++ q) := by
  have hcut := cutsAt_append (keepAll (gap ++ p)) fs hold
  have hpos := Text.byteSize_pos hq
  refine ⟨_, hcut, ?_, ?_⟩
  · rw [output_keepAll, Text.byteSize_append]
    omega
  · rw [output_keepAll, ← List.append_assoc, Text.byteSize_append (gap ++ p)]
    omega

end Edit

namespace CutsThrough

open Edit

variable {marker t rest before w word tail : Text} {cuts : List Cut} {call : Call}

/-- A call in the text that is left lies across a cut. -/
theorem cut_in_call (h : CutsThrough marker t cuts rest) (hrest : Uncalled marker [] rest [])
    (hkept : Cut.kept cuts ++ rest = before ++ w) (hboundary : endsAtBoundary before)
    (hcall : callAt? marker w = some call) :
    ∃ n, CutsAt (Cut.edits cuts ++ keepAll rest) n ∧ Text.byteSize before < n ∧
      n ≤ Text.byteSize (before ++ call.head) := by
  induction h generalizing before with
  | start =>
      have hnone := hrest before w hkept (ne_nil_of_callAt? hcall) hboundary
      rw [List.append_nil, hcall] at hnone
      cases hnone
  | @cut c behind rest cuts huncalled hgap hcut hhandler _ ih =>
      have hne : c.invocation ≠ [] := Call.stretch_ne_nil hcut
      rw [Cut.kept_cons, List.append_assoc] at hkept
      rw [Cut.edits_cons, List.append_assoc, List.cons_append]
      rcases Text.append_eq_append_cases hkept with ⟨b, rfl, hbehind⟩ | ⟨g, hg, hbefore, rfl⟩
      · -- The call begins behind the first cut.
        obtain ⟨n, hn, hlt, hle⟩ := ih hrest hbehind (endsAtBoundary_of_append hboundary)
        have hcuts := hn.append_left (keepAll c.gap ++ [.replace c.invocation []])
        refine ⟨Text.byteSize c.gap + n, by simpa [Edit.after] using hcuts, ?_, ?_⟩
        · rw [Text.byteSize_append]
          omega
        · rw [List.append_assoc, Text.byteSize_append]
          omega
      · -- It begins in front of it, where nothing was called before the cut.
        rcases callAt?_append_cases hcall with ⟨args, hargs⟩ | ⟨r, hr, -⟩
        · have hnone := huncalled before g hbefore hg hboundary
          rw [callAt?_append_text hargs] at hnone
          cases hnone
        · have hpos := Text.byteSize_pos hg
          refine ⟨_, cutsAt_append _ _ hne, ?_, ?_⟩
          · rw [output_keepAll, hbefore, Text.byteSize_append]
            omega
          · rw [output_keepAll, hbefore, hr, ← List.append_assoc,
              Text.byteSize_append (before ++ g)]
            omega

/-- A word in the text that is left has a cut in it or right in front of it, or it was kept in one
piece. -/
theorem cutsWord_or_keepsWord (h : CutsThrough marker t cuts rest) (hword : word ≠ [])
    (hkept : Cut.kept cuts ++ rest = before ++ (word ++ tail)) :
    CutsWord (Cut.edits cuts ++ keepAll rest) before word ∨
      KeepsWord (Cut.edits cuts ++ keepAll rest) before word := by
  induction h generalizing before with
  | start =>
      have hkeeps := keepsWord_keepAll before word tail []
      rw [← hkept, List.append_nil] at hkeeps
      exact Or.inr hkeeps
  | @cut c behind rest cuts huncalled hgap hcut hhandler _ ih =>
      have hne : c.invocation ≠ [] := Call.stretch_ne_nil hcut
      rw [Cut.kept_cons, List.append_assoc] at hkept
      rw [Cut.edits_cons, List.append_assoc, List.cons_append]
      rcases Text.append_eq_append_cases hkept with ⟨b, rfl, hbehind⟩ | ⟨g, hg, hbefore, hcut'⟩
      · by_cases hb : b = []
        · -- The word begins at the cut.
          subst hb
          have hcuts := cutsWord_of_cut c.gap [] (Cut.edits cuts ++ keepAll rest) hne hword
          rw [List.append_nil] at hcuts ⊢
          exact Or.inl hcuts
        · exact (ih hbehind).imp (·.behind_cut _ _) (·.behind_cut hb _ _)
      · rw [hbefore]
        rcases Text.append_eq_append_cases hcut' with ⟨g', rfl, -⟩ | ⟨w', hw', rfl, -⟩
        · exact Or.inr (keepsWord_keepAll before word g' _)
        · exact Or.inl (cutsWord_of_cut before g _ hne hw')

end CutsThrough

/-! ### What the class gets -/

/-- A listener call that stands in the script when all listeners are lifted lies across a cut, or it
stands in the dispatcher and is spelled out in the body of a listener. -/
theorem LiftedListeners.call_in_members {t before w : Text} {x : LiftedListeners} {call : Call}
    (hx : liftListeners .standard t = .ok x) (hmembers : x.members .standard = before ++ w)
    (hboundary : endsAtBoundary before)
    (hcall : callAt? Vocabulary.standard.listenerToken w = some call) :
    (∃ n, Edit.CutsAt x.edits n ∧ Text.byteSize before < n ∧
      n ≤ Text.byteSize (before ++ call.head)) ∨
    (Text.byteSize x.script ≤ Text.byteSize before ∧
      ∃ l ∈ x.listeners, call.head ++ ['('] <:+: l.body) := by
  have hforeign := Dispatcher.isForeign_listenerToken
  rw [members_eq] at hmembers
  rcases call_cases hforeign hx hmembers hboundary hcall with
    ⟨u, rfl, -, hbody⟩ | ⟨w', args, hkept, hargs⟩
  · refine Or.inr ⟨?_, hbody⟩
    rw [Text.byteSize_append]
    omega
  · obtain ⟨cuts, last, hcuts⟩ := listenerCuts_of_liftListeners hx
    have hscript : x.script = Cut.kept cuts ++ last := by
      rw [LiftedListeners.script, hcuts.edits]
      simp
    rw [hscript] at hkept
    have hcut := hcuts.through.cut_in_call hcuts.uncalled hkept hboundary hargs
    rw [← hcuts.edits] at hcut
    exact Or.inl hcut

/-- A call in the script that is left when the load handler is lifted has a cut in it or right in
front of it, or it stood in the script before, and its places lead back there. -/
theorem liftLoadHandler_call {v : Vocabulary} {t before head args : Text} {y : LiftedLoadHandler}
    (hy : liftLoadHandler v t = .ok y) (hscript : y.script = before ++ (head ++ '(' :: args))
    (hboundary : endsAtBoundary before) :
    (∃ n, Edit.CutsAt y.edits n ∧ Text.byteSize before ≤ n ∧
      n ≤ Text.byteSize (before ++ head)) ∨
    ∃ before' args', t = before' ++ (head ++ '(' :: args') ∧ endsAtBoundary before' ∧
      (SourceMap.ofEdits y.edits).toSource (Text.byteSize before) = Text.byteSize before' ∧
      (SourceMap.ofEdits y.edits).toSource (Text.byteSize (before ++ head)) =
        Text.byteSize (before' ++ head) := by
  have hparen : '('.utf8Size = 1 := by decide
  have hword : head ++ ['('] ≠ [] := by simp
  obtain ⟨cuts, last, hcuts, hedits, -⟩ := liftLoadHandler_cuts hy
  have hkept : Cut.kept cuts ++ last = before ++ ((head ++ ['(']) ++ args) := by
    have hspelled : y.script = before ++ ((head ++ ['(']) ++ args) := by simpa using hscript
    rw [← hspelled, LiftedLoadHandler.script, hedits]
    simp
  have hcases := hcuts.cutsWord_or_keepsWord hword hkept
  rw [← hedits] at hcases
  rcases hcases with ⟨n, hn, hle, hlt⟩ | ⟨es, fs, hes, houtput, hlast⟩
  · refine Or.inl ⟨n, hn, hle, ?_⟩
    rw [← List.append_assoc, Text.byteSize_append _ ['('], Text.byteSize_cons, hparen,
      Text.byteSize_nil] at hlt
    omega
  · refine Or.inr ⟨Edit.source es, Edit.source fs, ?_, ?_, ?_, ?_⟩
    · rw [← source_of_liftLoadHandler hy, hes]
      simp
    · rwa [endsAtBoundary, hlast]
    · have hplace := SourceMap.toSource_ofEdits_kept es fs [] hword
      rwa [List.nil_append, ← hes, List.append_nil, List.append_nil, houtput] at hplace
    · have hplace := SourceMap.toSource_ofEdits_kept es fs head (List.cons_ne_nil '(' [])
      rwa [← hes, houtput] at hplace

/-- Why a listener call stands in the members of a class. -/
inductive Survives (x : LiftedListeners) (y : LiftedLoadHandler) (site : CallSite) : Prop where
  /-- The load handler was cut out inside the call or right in front of it. -/
  | acrossLoadHandler {n : Nat} (hcut : Edit.CutsAt y.edits n) (hstart : site.start ≤ n)
      (hparen : n ≤ site.paren) : Survives x y site
  /-- A listener was cut out inside the call. -/
  | acrossListener {n : Nat} (hcut : Edit.CutsAt x.edits n)
      (hstart : (SourceMap.ofEdits y.edits).toSource site.start < n)
      (hparen : n ≤ (SourceMap.ofEdits y.edits).toSource site.paren) : Survives x y site
  /-- The call stands behind the script, and it stood in the body of a listener. -/
  | inBody {l : Listener} {word : Text} (hl : l ∈ x.listeners)
      (hstart : Text.byteSize x.script ≤ (SourceMap.ofEdits y.edits).toSource site.start)
      (hword : Text.slice? site.start (site.paren + 1) y.script = some word)
      (hbody : word <:+: l.body) : Survives x y site

/-- Of the listener calls of a script, those alone are left in the class that lie across a cut or
were moved with the body of a listener. -/
theorem compile_survives {script : Text} {result : CompiledScript}
    (h : compile script = .ok result) :
    ∃ x y, liftListeners .standard (liftable .standard script) = .ok x ∧
      liftLoadHandler .standard (x.members .standard) = .ok y ∧ result.members = y.script ∧
      ∀ offset site, CallSite.find? result.members offset Vocabulary.standard.listenerToken false =
        some site → Survives x y site := by
  obtain ⟨x, y, hx, hy, hmembers⟩ := compile_eq_ok h
  refine ⟨x, y, hx, hy, hmembers, ?_⟩
  intro offset ⟨start, paren⟩ hsite
  rw [hmembers] at hsite
  obtain ⟨before, ⟨head, args⟩, hscript, hboundary, hcall, hstart, hparen⟩ :=
    CallSite.cut_of_find? hsite
  obtain ⟨-, -, -, t, rfl⟩ := callAt?_eq_some_iff.mp hcall
  dsimp only at hscript hcall hstart hparen
  subst hstart hparen
  rcases liftLoadHandler_call hy hscript hboundary with
    ⟨n, hn, hle, hle'⟩ | ⟨before', args', hsource, hboundary', hstart, hparen⟩
  · exact .acrossLoadHandler hn hle hle'
  · -- The call stood in the script that the load handler was lifted out of.
    rcases LiftedListeners.call_in_members hx hsource hboundary'
      (callAt?_paren hcall args') with ⟨n, hn, hlt, hle⟩ | ⟨hbehind, l, hl, hbody⟩
    · exact .acrossListener hn (hstart ▸ hlt) (hparen ▸ hle)
    · refine .inBody hl (hstart ▸ hbehind) ?_ hbody
      have hslice := Text.slice?_byteSize_append before (head ++ ['(']) t
      have hsize : '('.utf8Size = 1 := by decide
      rw [hscript]
      simpa [hsize, Nat.add_assoc] using hslice

/-- A listener inside a listener is moved as it is, and so the token is called in the members. -/
theorem nestedListener_survives :
    ∃ result, compile
        "addChangeListener(\"a\", v => \x7b addChangeListener(\"b\", w => \x7b\x7d); \x7d)".toList =
          .ok result ∧
      CallSite.find? result.members 0 Vocabulary.standard.listenerToken false ≠ none := by
  have hfound : Except.map
      (fun r => CallSite.find? r.members 0 Vocabulary.standard.listenerToken false)
      (compile
        "addChangeListener(\"a\", v => \x7b addChangeListener(\"b\", w => \x7b\x7d); \x7d)".toList)
      = .ok (some ⟨103, 120⟩) := by
    decide +kernel
  obtain ⟨result, hresult, hsite⟩ := map_eq_ok_iff.mp hfound
  exact ⟨result, hresult, by simp [hsite]⟩

/-- A call that is completed where another one was cut out. -/
theorem joinedCall_survives :
    ∃ result x y,
      compile "addChangeListener addChangeListener(\"a\", v => \x7b f(v); \x7d)(x)".toList =
        .ok result ∧ result.members = y.script ∧
      CallSite.find? result.members 0 Vocabulary.standard.listenerToken false = some ⟨0, 18⟩ ∧
      Survives x y ⟨0, 18⟩ := by
  have hfound : (compile
        "addChangeListener addChangeListener(\"a\", v => \x7b f(v); \x7d)(x)".toList).map
      (fun r => CallSite.find? r.members 0 Vocabulary.standard.listenerToken false) =
        .ok (some ⟨0, 18⟩) := by
    rfl
  obtain ⟨result, hresult, hsite⟩ := map_eq_ok_iff.mp hfound
  obtain ⟨x, y, -, -, hmembers, hsurvives⟩ := compile_survives hresult
  exact ⟨result, x, y, hresult, hmembers, hsite, hsurvives 0 ⟨0, 18⟩ hsite⟩

end ElementScript
