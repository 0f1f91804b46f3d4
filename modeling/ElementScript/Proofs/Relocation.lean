import ElementScript.Compiler
import ElementScript.Proofs.PassEdits
import ElementScript.Proofs.SourceMap.Edits

/-!
# Faults lead back to the author's script

A pass finds a fault in the text that the passes before it have made. The invariant that carries the
fault back is `EditedFrom`: the text at hand comes from the script by edit lists whose maps are
those on record. One map takes proper places to proper places and copied bytes to the same bytes, so
a run of them does (`EditedFrom.isPlace_traceBack`, `EditedFrom.bytes_traceBack`), whichever passes
made them and in whichever order.
-/

namespace ElementScript

/-! ### Texts that lead back to a script -/

/-- The text was made of the script by edit lists with the given maps, the last one first. -/
inductive EditedFrom (script : Text) : Text → List SourceMap → Prop where
  | start : EditedFrom script script []
  | edit {maps : List SourceMap} (edits : List Edit)
      (before : EditedFrom script (Edit.source edits) maps) :
      EditedFrom script (Edit.output edits) (.ofEdits edits :: maps)

/-- The byte at an offset was copied by every map that leads it back. -/
def CopiedThrough : List SourceMap → Nat → Prop
  | [], _ => True
  | m :: maps, offset => m.Copies offset ∧ CopiedThrough maps (m.toSource offset)

namespace EditedFrom

variable {script text : Text} {maps : List SourceMap} {offset : Nat}

/-- Proper places of the text lead back to proper places of the script. -/
theorem isPlace_traceBack (h : EditedFrom script text maps) (hplace : text.IsPlace offset) :
    script.IsPlace (traceBack maps offset) := by
  induction h generalizing offset with
  | start => exact hplace
  | edit edits before ih =>
      -- The last map leads to a place of the text before it, and the others lead on from there.
      exact ih (SourceMap.isPlace_toSource_ofEdits hplace)

/-- A byte that was copied all the way is the byte of the script that it leads back to. -/
theorem bytes_traceBack (h : EditedFrom script text maps) (hcopied : CopiedThrough maps offset) :
    script.bytes[traceBack maps offset]? = text.bytes[offset]? := by
  induction h generalizing offset with
  | start => rfl
  | edit edits before ih =>
      obtain ⟨hcopies, hrest⟩ := hcopied
      rw [← SourceMap.bytes_toSource_ofEdits hcopies]
      exact ih hrest

end EditedFrom

/-! ### Runs of passes -/

section Runs

variable {v : Vocabulary} {p q : Progress} {pass : Pass} {passes before after : List Pass}
  {script : Text} {f : Fault}

/-- All that one pass does to the progress. -/
theorem Progress.advance_eq_ok (h : p.advance v pass = .ok q) :
    ∃ edits harvest, pass.run v p.script p.harvest = .ok (edits, harvest) ∧
      q = ⟨Edit.output edits, harvest, .ofEdits edits :: p.maps⟩ := by
  unfold advance at h
  split at h
  · cases h
  · rename_i edits harvest hrun
    cases h
    exact ⟨edits, harvest, hrun, rfl⟩

/-- A pass fails with the fault that it finds, led back to the start. -/
theorem Progress.advance_eq_error_iff :
    p.advance v pass = .error f ↔
      ∃ g, pass.run v p.script p.harvest = .error g ∧
        f = { g with offset := p.origin g.offset } := by
  unfold advance
  cases hrun : pass.run v p.script p.harvest with
  | error g => simp [eq_comm]
  | ok r => simp

theorem advance_all_cons :
    (pass :: passes).foldlM (Progress.advance v) p =
      (p.advance v pass).bind fun q => passes.foldlM (Progress.advance v) q := by
  rw [List.foldlM_cons]
  rfl

/-- A run goes through what it has made of the script so far. -/
theorem advance_all_append :
    (before ++ after).foldlM (Progress.advance v) p =
      (before.foldlM (Progress.advance v) p).bind fun q => after.foldlM (Progress.advance v) q := by
  rw [List.foldlM_append]
  rfl

/-- A run fails at one pass, behind passes that succeed. -/
theorem advance_all_eq_error_iff :
    passes.foldlM (Progress.advance v) p = .error f ↔
      ∃ before pass after q, passes = before ++ pass :: after ∧
        before.foldlM (Progress.advance v) p = .ok q ∧ q.advance v pass = .error f := by
  constructor
  · intro h
    induction passes generalizing p with
    | nil => cases h
    | cons pass passes ih =>
        -- Either the first pass fails, with nothing in front of it, or one of those behind it does.
        rw [advance_all_cons] at h
        cases hstep : p.advance v pass with
        | error g =>
            rw [hstep] at h
            cases h
            exact ⟨[], pass, passes, p, rfl, rfl, hstep⟩
        | ok q =>
            rw [hstep] at h
            obtain ⟨before, failing, after, q', rfl, hbefore, hfails⟩ := ih h
            refine ⟨pass :: before, failing, after, q', rfl, ?_, hfails⟩
            rw [advance_all_cons, hstep]
            exact hbefore
  · intro h
    obtain ⟨before, pass, after, q, rfl, hbefore, hfails⟩ := h
    rw [advance_all_append, hbefore]
    change (pass :: after).foldlM (Progress.advance v) q = .error f
    rw [advance_all_cons, hfails]
    rfl

/-- Each pass keeps the maps in line with the text. -/
theorem EditedFrom.editedFrom_advance (h : EditedFrom script p.script p.maps)
    (hq : p.advance v pass = .ok q) : EditedFrom script q.script q.maps := by
  obtain ⟨edits, harvest, hrun, rfl⟩ := Progress.advance_eq_ok hq
  rw [← Pass.source_of_run hrun] at h
  exact .edit edits h

theorem EditedFrom.editedFrom_advance_all (h : EditedFrom script p.script p.maps)
    (hq : passes.foldlM (Progress.advance v) p = .ok q) : EditedFrom script q.script q.maps := by
  induction passes generalizing p with
  | nil =>
      cases hq
      exact h
  | cons pass passes ih =>
      rw [advance_all_cons] at hq
      cases hstep : p.advance v pass with
      | error g =>
          rw [hstep] at hq
          cases hq
      | ok p' =>
          rw [hstep] at hq
          exact ih (h.editedFrom_advance hstep) hq

/-- What passes have made of a script leads back to it. -/
theorem editedFrom_of_runPasses (h : runPasses v passes script = .ok p) :
    EditedFrom script p.script p.maps :=
  EditedFrom.editedFrom_advance_all (p := .start script) .start h

/-- The fault of a run stands at a proper place of the script. -/
theorem fault_isPlace_of_runPasses (h : runPasses v passes script = .error f) :
    script.IsPlace f.offset := by
  obtain ⟨before, pass, after, q, -, hbefore, hfails⟩ := advance_all_eq_error_iff.mp h
  obtain ⟨g, hrun, rfl⟩ := Progress.advance_eq_error_iff.mp hfails
  exact (editedFrom_of_runPasses hbefore).isPlace_traceBack (Pass.fault_isPlace_of_run hrun)

end Runs

/-! ### What the author is told -/

/-- The report `told` about a script is the report `own` about the text that passes have made of it:
the same in kind, message and help, and at the position to which the place of `own` leads back. That
is a proper place of the script, its line is the one shown, and its byte is the byte at the place of
`own`, if that was copied by all passes. -/
structure Relocated (script : Text) (p : Progress) (own told : Diagnostic) : Prop where
  kind : told.kind = own.kind
  message : told.message = own.message
  help : told.help? = own.help?
  located : ∃ place position, own.position? = some place ∧ told.position? = some position ∧
    position = Position.locate script (traceBack p.maps place.byte) ∧
    position.byte = traceBack p.maps place.byte ∧
    position.byte ≤ Text.byteSize script ∧ script.IsPlace position.byte ∧
    told.sourceLine? = script.line? position.line ∧
    (place.byte < Text.byteSize p.script → CopiedThrough p.maps place.byte →
      ∃ byte, p.script.bytes[place.byte]? = some byte ∧ script.bytes[position.byte]? = some byte)

/-- A fault of the text at hand is reported at the place of the script to which it leads back. -/
theorem relocated_ofFault {script : Text} {p : Progress} {g : Fault}
    (h : EditedFrom script p.script p.maps) (hg : p.script.IsPlace g.offset) :
    Relocated script p (.ofFault p.script g)
      (.ofFault script { g with offset := p.origin g.offset }) := by
  have hplace : (Position.locate p.script g.offset).byte = g.offset :=
    Position.byte_locate_of_isPlace hg
  have hsource : script.IsPlace (traceBack p.maps g.offset) := h.isPlace_traceBack hg
  have hposition : (Position.locate script (traceBack p.maps g.offset)).byte =
      traceBack p.maps g.offset := Position.byte_locate_of_isPlace hsource
  refine ⟨rfl, rfl, rfl, Position.locate p.script g.offset,
    Position.locate script (traceBack p.maps g.offset), rfl, rfl, ?_, ?_, ?_, ?_, rfl, ?_⟩
  · rw [hplace]
  · rw [hplace, hposition]
  · rw [hposition]
    exact hsource.le
  · rw [hposition]
    exact hsource
  · rw [hplace, hposition]
    intro hlt hcopied
    have hbyte : g.offset < p.script.bytes.length := by rwa [Text.length_bytes]
    refine ⟨p.script.bytes[g.offset], List.getElem?_eq_getElem hbyte, ?_⟩
    rw [h.bytes_traceBack hcopied, List.getElem?_eq_getElem hbyte]

/-- A run of passes fails exactly where one of them finds a fault in what those before it made of
the script, and what the author is told is the report of that fault, led back to the script. -/
theorem runPasses_eq_error_iff_relocated (v : Vocabulary) (passes : List Pass) (script : Text)
    (f : Fault) :
    runPasses v passes script = .error f ↔
      ∃ before pass after p g, passes = before ++ pass :: after ∧
        runPasses v before script = .ok p ∧ pass.run v p.script p.harvest = .error g ∧
        f = { g with offset := traceBack p.maps g.offset } ∧
        Relocated script p (.ofFault p.script g) (.ofFault script f) := by
  have hsplit : runPasses v passes script = .error f ↔ _ := advance_all_eq_error_iff
  rw [hsplit]
  constructor
  · intro h
    obtain ⟨before, pass, after, p, hpasses, hbefore, hfails⟩ := h
    obtain ⟨g, hrun, rfl⟩ := Progress.advance_eq_error_iff.mp hfails
    exact ⟨before, pass, after, p, g, hpasses, hbefore, hrun, rfl,
      relocated_ofFault (editedFrom_of_runPasses hbefore) (Pass.fault_isPlace_of_run hrun)⟩
  · intro h
    obtain ⟨before, pass, after, p, g, hpasses, hbefore, hrun, hf, -⟩ := h
    exact ⟨before, pass, after, p, hpasses, hbefore,
      Progress.advance_eq_error_iff.mpr ⟨g, hrun, hf⟩⟩

end ElementScript
