import ElementScript.Compiler
import ElementScript.Proofs.Comment
import ElementScript.Proofs.Relocation

/-!
# Plain lines in front of a script

Lines that hold no comment, no open literal and no marker are inert (`Inert`): every pass keeps
them, and does to what stands behind them what it does to that text alone (`Pass.run_behind`). The
script and the offsets are moved by the size of the lines, nothing else is (`Progress.Behind`), so a
run of passes over the script behind them is the run over the script itself
(`advance_all_behind`), and compiling moves only what it has to (`Compiler.compile_newline_append`).
-/

namespace ElementScript

/-- The words that the passes look for. -/
def Vocabulary.markers (v : Vocabulary) : List Text :=
  v.lifecycle.map v.fullMarker ++ [v.listenerToken, v.loadHandlerMarker]

example : Vocabulary.standard.markers =
    ["::connected".toList, "::disconnected".toList, "::moved".toList, "addChangeListener".toList,
      "::initialized".toList] := by rfl

/-! ### Inert text -/

/-- The lines `p` mean nothing to any pass, and their last one is ready to be ended. -/
structure Inert (v : Vocabulary) (p : Text) : Prop where
  comments : withoutComments p = p
  quotes : (CommentState.start.run p).mode.quotes = .code
  unmarked : ∀ marker ∈ v.markers, ¬ marker <:+: p
  /-- No marker goes on behind the end of a line. -/
  lines : ∀ marker ∈ v.markers, '\n' ∉ marker

/-- What begins in front of a character that it does not hold ends there too. -/
theorem prefix_of_prefix_append_cons {m u t : Text} {c : Char} (hc : c ∉ m)
    (h : m <+: u ++ c :: t) : m <+: u := by
  induction u generalizing m with
  | nil =>
      cases m with
      | nil => exact List.nil_prefix
      | cons d m =>
          obtain ⟨rfl, -⟩ := List.cons_prefix_cons.mp h
          exact absurd List.mem_cons_self hc
  | cons e u ih =>
      cases m with
      | nil => exact List.nil_prefix
      | cons d m =>
          obtain ⟨rfl, hm⟩ := List.cons_prefix_cons.mp h
          exact List.cons_prefix_cons.mpr ⟨rfl, ih (fun hd => hc (List.mem_cons_of_mem d hd)) hm⟩

namespace Inert

variable {v : Vocabulary} {p r : Text}

theorem callAt?_eq_none (h : Inert v p) {marker : Text} (hmarker : marker ∈ v.markers)
    (hr : r <:+ p) (t : Text) : callAt? marker (r ++ '\n' :: t) = none := by
  apply ElementScript.callAt?_eq_none
  intro hfront
  have hinside : marker <+: r := prefix_of_prefix_append_cons (h.lines marker hmarker) hfront
  exact h.unmarked marker hmarker (hinside.isInfix.trans hr.isInfix)

theorem lifecycleAt?_eq_none (h : Inert v p) (hr : r <:+ p) (t : Text) :
    lifecycleAt? v (r ++ '\n' :: t) = none := by
  unfold lifecycleAt?
  rw [List.findSome?_eq_none_iff]
  intro entry hentry
  have hmarker : v.fullMarker entry ∈ v.markers :=
    List.mem_append_left _ (List.mem_map_of_mem hentry)
  rw [h.callAt?_eq_none hmarker hr t]
  rfl

theorem listenerAt?_eq_none (h : Inert v p) (hr : r <:+ p) (t : Text) :
    Listener.at? v (r ++ '\n' :: t) = .ok none := by
  have hmarker : v.listenerToken ∈ v.markers := List.mem_append_right _ List.mem_cons_self
  unfold Listener.at?
  rw [h.callAt?_eq_none hmarker hr t]

end Inert

/-! ### One pass -/

/-- The answer of a pass, with text in front that it keeps. -/
def Pass.behind (q : Text) :
    Except Fault (List Edit × Harvest) → Except Fault (List Edit × Harvest)
  | .ok (edits, harvest) => .ok (Edit.keepAll q ++ edits, harvest)
  | .error f => .error (f.shift (Text.byteSize q))

section Behind

variable {v : Vocabulary} {p : Text}

/-- A sweep that finds nothing in the lines keeps them. -/
theorem sweep_behind {α : Type} (find : Text → Except Fault (Option (Found α))) (joins : Bool)
    {s : Text} (hnone : ∀ r, r <:+ p → find (r ++ '\n' :: s) = .ok none) :
    sweep find joins (p ++ ['\n'] ++ s) =
      resume ((p ++ ['\n']).map .keep) (Text.byteSize (p ++ ['\n'])) (sweep find joins s) := by
  have hblank : Text.isBlank '\n' := by decide
  rw [List.append_assoc, List.singleton_append, sweep_eq_sweepOn,
    sweepOn_keepAll find joins hblank hnone, sweep_eq_sweepOn]

theorem lifecycleEdits_behind (h : Inert v p) (s : Text) :
    lifecycleEdits v (p ++ ['\n'] ++ s) = Edit.keepAll (p ++ ['\n']) ++ lifecycleEdits v s := by
  have hnone : ∀ r, r <:+ p →
      (.ok (lifecycleAt? v (r ++ '\n' :: s)) : Except Fault (Option (Found LifecycleEntry))) =
        .ok none := by
    intro r hr
    rw [h.lifecycleAt?_eq_none hr s]
  have hsweep := sweep_behind (fun text => .ok (lifecycleAt? v text)) false hnone
  rw [sweep_ok, sweep_ok, resume_ok] at hsweep
  have hsteps : lifecycleSteps v (p ++ ['\n'] ++ s) =
      (p ++ ['\n']).map .keep ++ lifecycleSteps v s := Except.ok.inj hsweep
  rw [lifecycleEdits, hsteps, Step.edits_map_keep, lifecycleEdits]

theorem liftListeners_behind (h : Inert v p) (s : Text) :
    liftListeners v (p ++ ['\n'] ++ s) =
      match liftListeners v s with
      | .ok x => .ok ⟨Edit.keepAll (p ++ ['\n']) ++ x.edits, x.listeners⟩
      | .error f => .error (f.shift (Text.byteSize (p ++ ['\n']))) := by
  have hsweep : listenerSteps v (p ++ ['\n'] ++ s) = _ :=
    sweep_behind (Listener.at? v) true fun r hr => h.listenerAt?_eq_none hr s
  have hsteps : sweep (Listener.at? v) true s = listenerSteps v s := rfl
  unfold liftListeners
  rw [hsweep, hsteps]
  cases listenerSteps v s with
  | error f => rfl
  | ok steps => simp only [resume_ok, Except.map, Step.edits_map_keep, Step.values_map_keep]

theorem liftLoadHandler_behind (h : Inert v p) (s : Text) :
    liftLoadHandler v (p ++ ['\n'] ++ s) =
      match liftLoadHandler v s with
      | .ok x => .ok ⟨Edit.keepAll (p ++ ['\n']) ++ x.edits, x.handler?, x.ignored⟩
      | .error f => .error (f.shift (Text.byteSize (p ++ ['\n']))) := by
  have hblank : Text.isBlank '\n' := by decide
  have hmarker : v.loadHandlerMarker ∈ v.markers :=
    List.mem_append_right _ (List.mem_cons_of_mem _ List.mem_cons_self)
  have hseek : seekCall v.loadHandlerMarker true [] (p ++ ['\n'] ++ s) =
      (seekCall v.loadHandlerMarker true [] s).map fun found =>
        (p ++ ['\n'] ++ found.1, found.2) := by
    simp only [List.append_assoc, List.singleton_append]
    exact seekCall_append hblank fun r hr => h.callAt?_eq_none hmarker hr s
  unfold liftLoadHandler
  rw [hseek]
  cases seekCall v.loadHandlerMarker true [] s with
  | none => simp [Edit.keepAll]
  | some found =>
      obtain ⟨before, call⟩ := found
      dsimp only [Option.map_some]
      cases LoadHandler.ofCall v call with
      | error f =>
          dsimp only
          rw [Fault.shift_shift, ← Text.byteSize_append]
      | ok x =>
          have hafter : (p ++ ['\n'] ++ s).drop ((p ++ ['\n'] ++ before).length + x.old.length) =
              s.drop (before.length + x.old.length) := by
            rw [List.length_append, Nat.add_assoc, List.drop_length_add_append]
          dsimp only
          rw [hafter, Edit.keepAll_append, List.append_assoc]

/-- A pass keeps the lines, and does to the text behind them what it does to that text alone. -/
theorem Pass.run_behind (h : Inert v p) (pass : Pass) (s : Text) (harvest : Harvest) :
    pass.run v (p ++ ['\n'] ++ s) harvest = behind (p ++ ['\n']) (pass.run v s harvest) := by
  cases pass with
  | comments =>
      have hcomments := commentEdits_newline_append h.comments h.quotes s
      rw [run, run, behind, List.append_assoc, List.singleton_append, hcomments]
  | lifecycle => rw [run, run, behind, lifecycleEdits_behind h]
  | changeListeners =>
      rw [run, run, liftListeners_behind h]
      cases liftListeners v s with
      | error f => rfl
      | ok x =>
          simp only [Except.map, behind, List.append_assoc]
  | loadHandler =>
      rw [run, run, liftLoadHandler_behind h]
      cases liftLoadHandler v s with
      | error f => rfl
      | ok x => rfl

/-! ### Runs of passes -/

/-- What passes have made of a script is `a`, and `b` with the text `q` in front of the script. -/
structure Progress.Behind (q : Text) (a b : Progress) : Prop where
  script : b.script = q ++ a.script
  harvest : b.harvest = a.harvest
  origin : ∀ n, a.script.IsPlace n → b.origin (Text.byteSize q + n) = Text.byteSize q + a.origin n

/-- The answers of two runs, the second with the text `q` in front of the script. -/
inductive AnswersBehind (q : Text) : Except Fault Progress → Except Fault Progress → Prop where
  | ok {a b : Progress} (h : a.Behind q b) : AnswersBehind q (.ok a) (.ok b)
  | error (f : Fault) : AnswersBehind q (.error f) (.error (f.shift (Text.byteSize q)))

theorem Progress.behind_start (q s : Text) : (start s).Behind q (start (q ++ s)) :=
  ⟨rfl, rfl, fun _ _ => rfl⟩

/-- A pass advances both runs alike. -/
theorem Progress.Behind.answersBehind_advance (h : Inert v p) {a b : Progress}
    (hab : a.Behind (p ++ ['\n']) b) (pass : Pass) :
    AnswersBehind (p ++ ['\n']) (a.advance v pass) (b.advance v pass) := by
  obtain ⟨hscript, hharvest, horigin⟩ := hab
  unfold Progress.advance
  rw [hscript, hharvest, Pass.run_behind h]
  cases hrun : pass.run v a.script a.harvest with
  | error f =>
      have hplace : b.origin (Text.byteSize (p ++ ['\n']) + f.offset) =
          Text.byteSize (p ++ ['\n']) + a.origin f.offset :=
        horigin _ (Pass.fault_isPlace_of_run hrun)
      simp only [Pass.behind, Fault.shift, hplace]
      exact .error { f with offset := a.origin f.offset }
  | ok answer =>
      obtain ⟨edits, harvest⟩ := answer
      refine .ok ⟨?_, rfl, fun n hn => ?_⟩
      · show Edit.output (Edit.keepAll (p ++ ['\n']) ++ edits) = _
        rw [Edit.output_append, Edit.output_keepAll]
      · -- The place leads into the script before the pass, at which the maps so far take over.
        have hsource : a.script.IsPlace ((SourceMap.ofEdits edits).toSource n) := by
          rw [← Pass.source_of_run hrun]
          exact SourceMap.isPlace_toSource_ofEdits hn
        show b.origin ((SourceMap.ofEdits (Edit.keepAll (p ++ ['\n']) ++ edits)).toSource
          (Text.byteSize (p ++ ['\n']) + n)) = _
        rw [SourceMap.toSource_ofEdits_keepAll_append _ hn.le, horigin _ hsource]
        rfl

/-- All passes do. -/
theorem advance_all_behind (h : Inert v p) (passes : List Pass) {a b : Progress}
    (hab : a.Behind (p ++ ['\n']) b) :
    AnswersBehind (p ++ ['\n']) (passes.foldlM (Progress.advance v) a)
      (passes.foldlM (Progress.advance v) b) := by
  induction passes generalizing a b with
  | nil => exact .ok hab
  | cons pass passes ih =>
      rw [advance_all_cons, advance_all_cons]
      have hstep := hab.answersBehind_advance h pass
      generalize a.advance v pass = answer at hstep ⊢
      generalize b.advance v pass = answer' at hstep ⊢
      cases hstep with
      | ok hab' => exact ih hab'
      | error f => exact .error f

end Behind

/-! ### Compiling -/

/-- Lines that hold no comment, no open literal and no marker may be put in front of a script: they
come out in front of its members, and all else is as it was, with reports moved down. -/
theorem Compiler.compile_newline_append (compiler : Compiler)
    (hvocabulary : compiler.options.vocabulary = .standard) (p s : Text)
    (hsize : Text.byteSize (p ++ '\n' :: s) ≤ compiler.options.maxScriptBytes)
    (hmarkers : ∀ marker ∈ Vocabulary.standard.markers, ¬ marker <:+: p)
    (hcomments : withoutComments p = p)
    (hquotes : (CommentState.start.run p).mode.quotes = .code) :
    match compiler.compile s, compiler.compile (p ++ '\n' :: s) with
    | .ok x, .ok y => y = { x with members := p ++ '\n' :: x.members }
    | .error d, .error e => e.kind = d.kind ∧ e.message = d.message ∧ e.help? = d.help? ∧
        ∃ position, d.position? = some position ∧
          e.position? = some ⟨position.byte + Text.byteSize p + 1,
            position.line + p.count '\n' + 1, position.column⟩
    | _, _ => False := by
  have hinert : Inert Vocabulary.standard p := by
    refine ⟨hcomments, hquotes, hmarkers, ?_⟩
    decide
  have happend : p ++ '\n' :: s = p ++ ['\n'] ++ s := by simp
  have hfits : ¬ compiler.options.maxScriptBytes < Text.byteSize (p ++ ['\n'] ++ s) := by
    rw [← happend]
    omega
  have hfits' : ¬ compiler.options.maxScriptBytes < Text.byteSize s := by
    rw [Text.byteSize_append] at hfits
    omega
  have hanswers : AnswersBehind (p ++ ['\n']) (runPasses .standard Pass.standard s)
      (runPasses .standard Pass.standard (p ++ ['\n'] ++ s)) :=
    advance_all_behind hinert Pass.standard (Progress.behind_start _ s)
  -- The script fits if it does with the lines in front, so both are handed to the passes.
  unfold Compiler.compile
  rw [happend, hvocabulary]
  dsimp only
  rw [if_neg hfits, if_neg hfits']
  generalize runPasses .standard Pass.standard (p ++ ['\n'] ++ s) = answer at hanswers ⊢
  cases hrun : runPasses .standard Pass.standard s with
  | error f =>
      rw [hrun] at hanswers
      cases hanswers
      have hposition := Position.locate_newline_append p (fault_isPlace_of_runPasses hrun)
      exact ⟨rfl, rfl, rfl, Position.locate s f.offset, rfl, congrArg some hposition⟩
  | ok a =>
      rw [hrun] at hanswers
      cases hanswers with
      | @ok _ b hab =>
          obtain ⟨hscript, hharvest, -⟩ := hab
          show CompiledScript.mk b.script b.harvest.loadHandler? _ b.harvest.warnings = _
          rw [hscript, hharvest, List.append_assoc]
          rfl

/-- A member that divides, in front of a lifecycle callback. -/
theorem plainMember_newline_append :
    Compiler.standard.compile
        ("m() \x7b return 1 / 2; \x7d".toList ++ '\n' :: "::connected() \x7b\x7d".toList) =
      .ok ⟨"m() \x7b return 1 / 2; \x7d".toList ++ '\n' :: "connectedCallback() \x7b\x7d".toList,
        none, [], []⟩ := by
  have hcompile : Compiler.standard.compile "::connected() \x7b\x7d".toList =
      .ok ⟨"connectedCallback() \x7b\x7d".toList, none, [], []⟩ := by rfl
  have hframe := Compiler.compile_newline_append .standard rfl "m() \x7b return 1 / 2; \x7d".toList
    "::connected() \x7b\x7d".toList (by decide +kernel) (by decide +kernel) (by decide +kernel)
    (by decide +kernel)
  rw [hcompile] at hframe
  split at hframe
  · rename_i x y hx hy
    cases hx
    rw [hy, hframe]
  · rename_i d e hd he
    cases hd
  · cases hframe

end ElementScript
