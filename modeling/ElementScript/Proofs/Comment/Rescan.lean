import ElementScript.Proofs.Comment

/-!
# Scanning what a scan has written

The comment scan writes the stripped script while it reads the script. A second scan, over what the
first has written so far, is where the first is with regard to literals, outside of comments, and
has kept all of it (`CommentState.Rescans`): a slash is held back as long as a comment may begin
with it, and what a comment leaves behind is blank. So one scan finds all comments, and none comes
up where one was taken out (`withoutComments_withoutComments`).
-/

namespace ElementScript

namespace CommentState

/-- What the scan has written of the stripped script. -/
def written (s : CommentState) : Text := Edit.output s.edits.reverse

/-- A second scan, over what this one has written, is where this one is with regard to literals,
outside of comments, and has kept all of it. -/
def Rescans (s : CommentState) : Prop :=
  start.run s.written = ⟨.script s.mode.quotes, (Edit.keepAll s.written).reverse⟩

theorem rescans_start : start.Rescans := rfl

/-- In code, blanks are kept. -/
theorem run_blank {u : Text} (hblank : ∀ c ∈ u, Text.isBlank c) (edits : List Edit) :
    (⟨.script .code, edits⟩ : CommentState).run u =
      ⟨.script .code, (Edit.keepAll u).reverse ++ edits⟩ := by
  induction u generalizing edits with
  | nil => rfl
  | cons c u ih =>
      obtain ⟨hc, hu⟩ := List.forall_mem_cons.mp hblank
      have hne (d : Char) (hd : ¬ Text.isBlank d) : c ≠ d := fun heq => hd (heq ▸ hc)
      have hquote : ¬ Text.isQuote c := by
        simp [Text.isQuote, hne '\"' (by decide), hne '\'' (by decide), hne '\x60' (by decide)]
      have hstep : (⟨.script .code, edits⟩ : CommentState).step c =
          ⟨.script .code, .keep c :: edits⟩ := by
        simp [step, QuoteState.step, QuoteState.code, QuoteState.inCode, hquote,
          hne '/' (by decide), hne '\\' (by decide)]
      rw [run_cons, hstep, ih hu]
      simp [Edit.keepAll]

namespace Rescans

variable {s : CommentState} {mode mode' : CommentMode} {edits : List Edit}

/-- Nothing is written where the scan goes into a comment, or holds back a slash. -/
theorem change_mode (h : Rescans ⟨mode, edits⟩) (hquotes : mode'.quotes = mode.quotes) :
    Rescans ⟨mode', edits⟩ := by
  unfold Rescans at h ⊢
  rw [hquotes]
  exact h

/-- What is written must be kept by the second scan. -/
theorem append_edits (h : Rescans ⟨mode, edits⟩) (new : List Edit)
    (hnew : ∀ es, (⟨.script mode.quotes, es⟩ : CommentState).run (Edit.output new.reverse) =
      ⟨.script mode'.quotes, (Edit.keepAll (Edit.output new.reverse)).reverse ++ es⟩) :
    Rescans ⟨mode', new ++ edits⟩ := by
  have hwritten : written ⟨mode', new ++ edits⟩ =
      written ⟨mode, edits⟩ ++ Edit.output new.reverse := by
    simp [written]
  unfold Rescans at h ⊢
  rw [hwritten, run_append, h, hnew, Edit.keepAll_append, List.reverse_append]

/-- One step of the first scan. -/
theorem rescans_step (h : s.Rescans) (c : Char) : (s.step c).Rescans := by
  obtain ⟨mode, edits⟩ := s
  unfold CommentState.step
  cases mode with
  | script quotes =>
      dsimp only
      by_cases hslash : (quotes.inCode && c == '/') = true
      · have hcode := QuoteState.inCode_iff.mp (Bool.and_eq_true_iff.mp hslash).1
        rw [if_pos hslash]
        exact h.change_mode hcode.symm
      · rw [if_neg hslash]
        refine h.append_edits [.keep c] fun es => ?_
        show CommentState.step ⟨.script quotes, es⟩ c = _
        unfold CommentState.step
        exact if_neg hslash
  | slash =>
      dsimp only
      by_cases hline : c = '/'
      · rw [if_pos hline]
        exact h.append_edits [.replace ['/', '/'] []] fun es => rfl
      · rw [if_neg hline]
        by_cases hblock : c = '*'
        · rw [if_pos hblock]
          exact h.change_mode rfl
        · -- The second scan holds the slash back as well.
          rw [if_neg hblock]
          refine h.append_edits [.keep c, .keep '/'] fun es => ?_
          show CommentState.step ⟨.slash, es⟩ c = _
          unfold CommentState.step
          exact (if_neg hline).trans (if_neg hblock)
  | line =>
      dsimp only
      by_cases hnewline : c = '\n'
      · rw [if_pos hnewline, hnewline]
        exact h.append_edits [.keep '\n'] fun es => rfl
      · rw [if_neg hnewline]
        exact h.append_edits [.replace [c] []] fun es => rfl
  | block seen star =>
      dsimp only
      by_cases hclose : (star && c == '/') = true
      · rw [if_pos hclose]
        have houtput (old new : Text) : Edit.output [.replace old new].reverse = new :=
          List.append_nil new
        refine h.append_edits [.replace _ (commentRemains _)] fun es => ?_
        rw [houtput]
        exact run_blank (commentRemains_blank (c :: seen).reverse).2 es
      · rw [if_neg hclose]
        exact h.change_mode rfl

theorem rescans_run (h : s.Rescans) (t : Text) : (s.run t).Rescans := by
  induction t generalizing s with
  | nil => exact h
  | cons c t ih => exact ih (h.rescans_step c)

/-- When the script ends, the second scan keeps also what was held back. -/
theorem commentEdits_finish (h : s.Rescans) :
    commentEdits (Edit.output s.finish) = Edit.keepAll (Edit.output s.finish) := by
  have houtput : Edit.output s.finish = s.written ++ Edit.output s.pending := by
    rw [CommentState.finish, Edit.output_append, written]
  have hkept : ((⟨.script s.mode.quotes, []⟩ : CommentState).run (Edit.output s.pending)).finish =
      Edit.keepAll (Edit.output s.pending) := by
    obtain ⟨mode, edits⟩ := s
    cases mode <;> rfl
  rw [houtput, commentEdits, run_append, h, finish_run, List.reverse_reverse, hkept,
    Edit.keepAll_append]

end Rescans

end CommentState

/-- The second scan of a script finds no comments. -/
theorem commentEdits_withoutComments (script : Text) :
    commentEdits (withoutComments script) = Edit.keepAll (withoutComments script) :=
  (CommentState.rescans_start.rescans_run script).commentEdits_finish

/-- Stripping comments twice is stripping them once. -/
theorem withoutComments_withoutComments (script : Text) :
    withoutComments (withoutComments script) = withoutComments script := by
  rw [withoutComments, commentEdits_withoutComments, Edit.output_keepAll]

end ElementScript
