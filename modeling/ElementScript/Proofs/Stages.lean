import ElementScript.Proofs.Relocation

/-!
# The stages of a compilation

Compiling a script takes comments out of it and expands lifecycle markers, neither of which can
fail. Then listeners are lifted out of what that makes (`liftable`), and the load handler out of
what is left of it with the dispatcher behind it (`LiftedListeners.members`). A compilation that
succeeds has gone through both (`compile_eq_ok`). One that fails was refused unread, or one of the
two has failed, and the fault was led back through the maps of all stages before it
(`compile_eq_error`).
-/

namespace ElementScript

/-- The script that listeners are lifted out of. -/
def liftable (v : Vocabulary) (script : Text) : Text := expandLifecycle v (withoutComments script)

/-- The way back from there to the script. -/
def liftableMaps (v : Vocabulary) (script : Text) : List SourceMap :=
  [.ofEdits (lifecycleEdits v (withoutComments script)), .ofEdits (commentEdits script)]

/-- The edits of the listener pass, the dispatcher included. -/
def LiftedListeners.memberEdits (v : Vocabulary) (x : LiftedListeners) : List Edit :=
  x.edits ++ Pass.dispatcherEdits v x.listeners

/-- The script that the load handler is lifted out of. -/
def LiftedListeners.members (v : Vocabulary) (x : LiftedListeners) : Text :=
  Edit.output (x.memberEdits v)

theorem LiftedListeners.members_eq (v : Vocabulary) (x : LiftedListeners) :
    x.members v = x.script ++ Edit.output (Pass.dispatcherEdits v x.listeners) := by
  rw [members, memberEdits, Edit.output_append]
  rfl

/-- What has been lifted so far, with the listeners in it and the attributes that they repeat. -/
def LiftedListeners.noteIn (x : LiftedListeners) (harvest : Harvest) : Harvest :=
  { harvest with
    listeners := x.listeners
    warnings := harvest.warnings ++
      (Listener.repeatedAttributes x.listeners).map .repeatedAttribute }

/-- What has been lifted so far, with the load handler in it and the ones that were left. -/
def LiftedLoadHandler.noteIn (y : LiftedLoadHandler) (harvest : Harvest) : Harvest :=
  { harvest with
    loadHandler? := y.handler?
    warnings := harvest.warnings ++ List.replicate y.ignored .laterLoadHandler }

section Stages

variable {v : Vocabulary} {script : Text}

theorem runPasses_standard (v : Vocabulary) (script : Text) :
    runPasses v Pass.standard script =
      (Progress.advance v ⟨liftable v script, .empty, liftableMaps v script⟩
        .changeListeners).bind fun p => p.advance v .loadHandler := by
  have hbind (p : Progress) : [Pass.loadHandler].foldlM (Progress.advance v) p =
      p.advance v .loadHandler := by
    rw [advance_all_cons]
    cases p.advance v .loadHandler <;> rfl
  change [Pass.changeListeners, .loadHandler].foldlM (Progress.advance v)
    ⟨liftable v script, .empty, liftableMaps v script⟩ = _
  rw [advance_all_cons]
  simp only [hbind]

/-- The listener pass makes the members of what it lifts, and notes repeated attributes. -/
theorem Progress.advance_changeListeners {p : Progress} {x : LiftedListeners}
    (hx : liftListeners v p.script = .ok x) :
    p.advance v .changeListeners =
      .ok ⟨x.members v, x.noteIn p.harvest, .ofEdits (x.memberEdits v) :: p.maps⟩ := by
  simp only [advance, Pass.run, hx, Except.map]
  rfl

theorem Progress.advance_changeListeners_error {p : Progress} {g : Fault}
    (hg : liftListeners v p.script = .error g) :
    p.advance v .changeListeners = .error ⟨g.cause, p.origin g.offset⟩ := by
  simp only [advance, Pass.run, hg, Except.map]

/-- A run that succeeds has lifted the listeners and then the load handler. -/
theorem runPasses_standard_eq_ok {p : Progress} (h : runPasses v Pass.standard script = .ok p) :
    ∃ x y, liftListeners v (liftable v script) = .ok x ∧ liftLoadHandler v (x.members v) = .ok y ∧
      p.script = y.script ∧ p.harvest = y.noteIn (x.noteIn .empty) := by
  rw [runPasses_standard] at h
  cases hx : liftListeners v (liftable v script) with
  | error g =>
      rw [Progress.advance_changeListeners_error hx] at h
      cases h
  | ok x =>
      have hadvance := Progress.advance_changeListeners
        (p := ⟨liftable v script, .empty, liftableMaps v script⟩) hx
      rw [hadvance, Except.bind] at h
      obtain ⟨edits, harvest', hrun, rfl⟩ := Progress.advance_eq_ok h
      obtain ⟨y, hy, hedits⟩ := map_eq_ok_iff.mp hrun
      cases hedits
      exact ⟨x, y, rfl, hy, rfl, rfl⟩

/-- A run that fails could not lift the listeners, or not the load handler. -/
theorem runPasses_standard_eq_error {f : Fault} (h : runPasses v Pass.standard script = .error f) :
    (∃ g, liftListeners v (liftable v script) = .error g ∧
      f = ⟨g.cause, traceBack (liftableMaps v script) g.offset⟩) ∨
    ∃ x g, liftListeners v (liftable v script) = .ok x ∧
      liftLoadHandler v (x.members v) = .error g ∧
      f = ⟨g.cause,
        traceBack (.ofEdits (x.memberEdits v) :: liftableMaps v script) g.offset⟩ := by
  rw [runPasses_standard] at h
  cases hx : liftListeners v (liftable v script) with
  | error g =>
      rw [Progress.advance_changeListeners_error hx] at h
      cases h
      exact Or.inl ⟨g, rfl, rfl⟩
  | ok x =>
      have hadvance := Progress.advance_changeListeners
        (p := ⟨liftable v script, .empty, liftableMaps v script⟩) hx
      rw [hadvance, Except.bind] at h
      obtain ⟨g, hrun, rfl⟩ := Progress.advance_eq_error_iff.mp h
      exact Or.inr ⟨x, g, rfl, map_eq_error_iff.mp hrun, rfl⟩

end Stages

/-! ### Compilations -/

section Compilations

variable {script : Text}

/-- What a compiler answers is what was lifted out of the script, and what was left of it. -/
theorem Compiler.compile_eq_ok {compiler : Compiler} {result : CompiledScript}
    (h : compiler.compile script = .ok result) :
    ∃ x y, liftListeners compiler.options.vocabulary
        (liftable compiler.options.vocabulary script) = .ok x ∧
      liftLoadHandler compiler.options.vocabulary (x.members compiler.options.vocabulary) = .ok y ∧
      result = ⟨y.script, y.handler?, Listener.observedAttributes x.listeners,
        (y.noteIn (x.noteIn .empty)).warnings⟩ := by
  unfold Compiler.compile at h
  dsimp only at h
  split at h
  · cases h
  · split at h
    · cases h
    · rename_i members harvest maps hrun
      cases h
      obtain ⟨x, y, hx, hy, hscript, hharvest⟩ := runPasses_standard_eq_ok hrun
      refine ⟨x, y, hx, hy, ?_⟩
      dsimp only at hscript hharvest
      rw [hscript, hharvest]
      rfl

theorem compile_eq_ok {result : CompiledScript} (h : compile script = .ok result) :
    ∃ x y, liftListeners .standard (liftable .standard script) = .ok x ∧
      liftLoadHandler .standard (x.members .standard) = .ok y ∧ result.members = y.script := by
  obtain ⟨x, y, hx, hy, rfl⟩ := Compiler.compile_eq_ok h
  exact ⟨x, y, hx, hy, rfl⟩

theorem compile_eq_error {d : Diagnostic} (h : compile script = .error d) :
    (∃ size limit, d = .ofCause (.scriptTooLarge size limit)) ∨
      ∃ f, runPasses .standard Pass.standard script = .error f ∧ d = .ofFault script f := by
  unfold compile Compiler.compile at h
  dsimp only at h
  split at h
  · cases h
    exact Or.inl ⟨_, _, rfl⟩
  · split at h
    · rename_i f hrun
      cases h
      exact Or.inr ⟨f, hrun, rfl⟩
    · cases h

end Compilations

end ElementScript
