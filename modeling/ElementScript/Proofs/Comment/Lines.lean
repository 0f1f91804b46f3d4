import ElementScript.Proofs.Comment.Literals
import ElementScript.Proofs.SourceMap.Edits

/-!
# Comments and lines

A line feed outside of literals and block comments brings the comment scan back to where it started,
so a script is stripped line by line there, and nowhere else (`withoutComments_append_newline_iff`).
No edit of the scan takes a line feed away or adds one, save for the one that takes out a block
comment without an end, and that edit is the last (`CommentState.keepsLines_of_mem_dropLast`). So
what is kept of a script stays on its line, and only line feeds of such a comment are missing
(`withoutComments_keeps_lines`).
-/

namespace ElementScript

/-! ### Line by line -/

namespace CommentState

/-- The literal that the comment scan is in was opened by a quote. -/
theorem isProper_quotes_step {s : CommentState} (hs : s.mode.quotes.IsProper) (c : Char) :
    (s.step c).mode.quotes.IsProper := by
  obtain ⟨mode, edits⟩ := s
  have hcode : QuoteState.code.IsProper := QuoteState.isProper_code
  unfold step
  cases mode with
  | script quotes =>
      dsimp only
      split
      · exact hcode
      · exact QuoteState.IsProper.isProper_step hs c
  | slash =>
      dsimp only
      split
      · exact hcode
      · split
        · exact hcode
        · exact hcode.isProper_step c
  | line =>
      dsimp only
      split <;> exact hcode
  | block seen star =>
      dsimp only
      split <;> exact hcode

theorem isProper_quotes_run {s : CommentState} (hs : s.mode.quotes.IsProper) (t : Text) :
    (s.run t).mode.quotes.IsProper := by
  induction t generalizing s with
  | nil => exact hs
  | cons c t ih => exact ih (isProper_quotes_step hs c)

variable {a : Text} {edits : List Edit}

/-- In a literal that goes on behind a line feed, no comment begins. -/
theorem withoutComments_newline_of_literal {quote : Char} {escaped : Bool}
    (h : start.run a = ⟨.script ⟨some quote, escaped⟩, edits⟩) :
    withoutComments (a ++ '\n' :: "//".toList) = withoutComments a ++ '\n' :: "//".toList := by
  have hproper : (start.run a).mode.quotes.IsProper :=
    isProper_quotes_run (s := start) QuoteState.isProper_code a
  have hquote : Text.isQuote quote := by
    rw [h] at hproper
    exact hproper quote rfl
  have hne (c : Char) (hc : ¬ Text.isQuote c) : c ≠ quote := fun heq => hc (heq ▸ hquote)
  have hnewline : (⟨some quote, escaped⟩ : QuoteState).step '\n' = ⟨some quote, false⟩ := by
    cases escaped <;> simp [QuoteState.step, hne '\n' (by decide)]
  have hstep : (start.run a).step '\n' =
      ⟨.script ⟨some quote, false⟩, .keep '\n' :: edits⟩ := by
    rw [h, ← hnewline]
    rfl
  have hmarks : quote ∉ "//".toList := by simpa using (hne '/' (by decide)).symm
  have hrun : start.run (a ++ '\n' :: "//".toList) = ⟨.script ⟨some quote, false⟩,
      (Edit.keepAll "//".toList).reverse ++ .keep '\n' :: edits⟩ := by
    rw [run_append, run_cons, hstep, run_literal hmarks (by decide)]
  rw [withoutComments, withoutComments, commentEdits, commentEdits, hrun, h]
  simp [finish, pending, Edit.keepAll, Edit.after]

/-- A block comment that goes on behind a line feed takes the line feed out with it. -/
theorem withoutComments_newline_of_block {seen : Text} {star : Bool}
    (h : start.run a = ⟨.block seen star, edits⟩) :
    withoutComments (a ++ ['\n']) = withoutComments a := by
  have hclose : ¬ (star && '\n' == '/') = true := by simp
  have hrun : start.run (a ++ ['\n']) = ⟨.block ('\n' :: seen) false, edits⟩ := by
    rw [run_append, h]
    exact if_neg hclose
  rw [withoutComments, withoutComments, commentEdits, commentEdits, hrun, h]
  simp [finish, pending, Edit.after]

end CommentState

/-- Stripping comments goes line by line: the texts on both sides of a line feed are stripped each
by itself, whatever the second one is, if and only if the line feed stands in no literal and in no
block comment. A backslash in front of it may escape it, and changes nothing. -/
theorem withoutComments_append_newline_iff (a : Text) :
    (∀ b, withoutComments (a ++ '\n' :: b) = withoutComments a ++ '\n' :: withoutComments b) ↔
      (CommentState.start.run a).mode.EndsWithLine := by
  constructor
  · intro h
    rcases hrun : CommentState.start.run a with ⟨mode, edits⟩
    cases mode with
    | slash => trivial
    | line => trivial
    | script quotes =>
        obtain ⟨quote, escaped⟩ := quotes
        cases quote with
        | none => rfl
        | some quote =>
            -- The marks of a comment are kept in the literal, and would not be kept in code.
            have hliteral := CommentState.withoutComments_newline_of_literal hrun
            have hmarks : withoutComments "//".toList = [] := by rfl
            rw [h "//".toList, hmarks] at hliteral
            exact absurd (List.append_cancel_left hliteral) (by decide)
    | block seen star =>
        have hblock := CommentState.withoutComments_newline_of_block hrun
        have hnothing : withoutComments [] = [] := rfl
        rw [h [], hnothing] at hblock
        simp at hblock
  · intro h b
    rw [withoutComments, commentEdits_append_newline h, Edit.output_append, Edit.output_cons]
    rfl

/-! ### Line feeds -/

namespace Edit

/-- The edit leaves as many line feeds as it covers. -/
def KeepsLines (e : Edit) : Prop := e.after.count '\n' = e.before.count '\n'

theorem keepsLines_keep (c : Char) : (keep c).KeepsLines := rfl

theorem count_output {edits : List Edit} (h : ∀ e ∈ edits, e.KeepsLines) :
    (output edits).count '\n' = (source edits).count '\n' := by
  induction edits with
  | nil => rfl
  | cons e es ih =>
      obtain ⟨he, hes⟩ := List.forall_mem_cons.mp h
      unfold KeepsLines at he
      rw [output_cons, source_cons, List.count_append, List.count_append, he, ih hes]

end Edit

/-- A block comment leaves the line feeds that are in it. -/
theorem count_commentRemains (comment : Text) :
    (commentRemains comment).count '\n' = comment.count '\n' := by
  have hfilter : (comment.filter (· == '\n')).count '\n' = comment.count '\n' :=
    List.count_filter rfl
  unfold commentRemains
  split
  · rename_i hnone
    rw [hnone] at hfilter
    exact hfilter
  · exact hfilter

namespace CommentState

/-- One step of the scan writes edits that keep line feeds. -/
theorem keepsLines_step {s : CommentState} (h : ∀ e ∈ s.edits, e.KeepsLines) (c : Char) :
    ∀ e ∈ (s.step c).edits, e.KeepsLines := by
  obtain ⟨mode, edits⟩ := s
  have hcons {e : Edit} (he : e.KeepsLines) {es : List Edit} (hes : ∀ e ∈ es, e.KeepsLines) :
      ∀ e' ∈ e :: es, e'.KeepsLines := List.forall_mem_cons.mpr ⟨he, hes⟩
  unfold step
  cases mode with
  | script quotes =>
      dsimp only
      split
      · exact h
      · exact hcons (Edit.keepsLines_keep c) h
  | slash =>
      dsimp only
      split
      · have hmarks : (Edit.replace ['/', '/'] []).KeepsLines := rfl
        exact hcons hmarks h
      · split
        · exact h
        · exact hcons (Edit.keepsLines_keep c) (hcons (Edit.keepsLines_keep '/') h)
  | line =>
      dsimp only
      split
      · exact hcons (Edit.keepsLines_keep c) h
      · -- What a line comment drops is no line feed.
        rename_i hc
        have hdrop : (Edit.replace [c] []).KeepsLines := by
          show ([] : Text).count '\n' = [c].count '\n'
          rw [List.count_nil, List.count_singleton, if_neg (by simpa using hc)]
        exact hcons hdrop h
  | block seen star =>
      dsimp only
      split
      · have hremains : (Edit.replace (c :: seen).reverse
            (commentRemains (c :: seen).reverse)).KeepsLines := count_commentRemains _
        exact hcons hremains h
      · exact h

theorem keepsLines_run {s : CommentState} (h : ∀ e ∈ s.edits, e.KeepsLines) (t : Text) :
    ∀ e ∈ (s.run t).edits, e.KeepsLines := by
  induction t generalizing s with
  | nil => exact h
  | cons c t ih => exact ih (keepsLines_step h c)

theorem keepsLines_start_run (t : Text) : ∀ e ∈ (start.run t).edits, e.KeepsLines :=
  keepsLines_run (List.forall_mem_nil _) t

/-- The text of a block comment that has not been closed yet. -/
def openComment (s : CommentState) : Text :=
  match s.mode with
  | .block seen _ => seen.reverse
  | _ => []

/-- Of what is unwritten at the end of the script, only a block comment is taken out. -/
theorem count_pending (s : CommentState) :
    (Edit.output s.pending).count '\n' + s.openComment.count '\n' =
      (Edit.source s.pending).count '\n' := by
  obtain ⟨mode, edits⟩ := s
  cases mode with
  | script quotes => rfl
  | slash => rfl
  | line => rfl
  | block seen star => simp [pending, openComment, Edit.before, Edit.after]

/-- All edits but the last one keep line feeds. -/
theorem keepsLines_of_mem_dropLast {s : CommentState} (h : ∀ e ∈ s.edits, e.KeepsLines) :
    ∀ e ∈ s.finish.dropLast, e.KeepsLines := by
  obtain ⟨mode, edits⟩ := s
  have hnone : (edits.reverse ++ []).dropLast ⊆ edits.reverse := by
    rw [List.append_nil]
    exact List.dropLast_subset _
  have hone (e : Edit) : (edits.reverse ++ [e]).dropLast ⊆ edits.reverse := by
    rw [List.dropLast_concat]
    exact List.Subset.refl _
  have hwritten : (finish ⟨mode, edits⟩).dropLast ⊆ edits.reverse := by
    cases mode with
    | script quotes => exact hnone
    | slash => exact hone _
    | line => exact hnone
    | block seen star => exact hone _
  intro e he
  exact h e (List.mem_reverse.mp (hwritten he))

end CommentState

/-- The block comment at the end of the script that is never closed, if there is one. -/
def unclosedComment (script : Text) : Text := (CommentState.start.run script).openComment

/-- Taking comments out moves nothing to another line: each byte that is kept is on the line of the
output on which it is in the script. And it takes out no line feed, except for those of a block
comment that is never closed. -/
theorem withoutComments_keeps_lines (script : Text) :
    (∀ offset, (SourceMap.ofEdits (commentEdits script)).Copies offset →
      (Position.locate (withoutComments script) offset).line =
        (Position.locate script
          ((SourceMap.ofEdits (commentEdits script)).toSource offset)).line) ∧
      (withoutComments script).count '\n' + (unclosedComment script).count '\n' =
        script.count '\n' := by
  have hkeeps := CommentState.keepsLines_start_run script
  constructor
  · intro offset hcopied
    obtain ⟨es, c, fs, k, hedits, hk, hoffset, hsource⟩ := hcopied.exists_keep
    have hbefore : ∀ e ∈ es, e.KeepsLines := by
      -- Behind the edits of `es` there is one more, so the last edit is none of them.
      intro e he
      refine CommentState.keepsLines_of_mem_dropLast hkeeps e ?_
      have hfinish : (CommentState.start.run script).finish = es ++ .keep c :: fs := hedits
      rw [hfinish, List.dropLast_append_of_ne_nil (List.cons_ne_nil _ _)]
      exact List.mem_append_left _ he
    have houtput : withoutComments script = Edit.output es ++ c :: Edit.output fs := by
      simp [withoutComments, hedits, Edit.after]
    have hscript : script = Edit.source es ++ c :: Edit.source fs := by
      rw [← source_commentEdits script, hedits]
      simp [Edit.before]
    have hline : Position.locate script (Text.byteSize (Edit.source es) + k) =
        Position.after (Edit.source es) := by
      rw [hscript]
      exact Position.locate_inside _ _ hk
    rw [hsource, hline, hoffset, houtput, Position.locate_inside _ _ hk]
    exact Edit.count_output hbefore
  · have hwritten := Edit.count_output fun e he => hkeeps e (List.mem_reverse.mp he)
    have hpending := (CommentState.start.run script).count_pending
    have hsource : script = Edit.source (CommentState.start.run script).finish :=
      (source_commentEdits script).symm
    have hcount : script.count '\n' =
        (Edit.source (CommentState.start.run script).finish).count '\n' :=
      congrArg (List.count '\n') hsource
    rw [hcount, withoutComments, commentEdits, unclosedComment, CommentState.finish,
      Edit.output_append, Edit.source_append, List.count_append, List.count_append, hwritten,
      ← hpending, Nat.add_assoc]

/-- The last line of a script, behind a block comment of two lines and a line comment. -/
theorem twoLineComment_keeps_lines :
    withoutComments "a /* one\ntwo */ b // c\nd".toList = "a \n b \nd".toList ∧
      (SourceMap.ofEdits (commentEdits "a /* one\ntwo */ b // c\nd".toList)).Copies 7 ∧
      (Position.locate "a \n b \nd".toList 7).line = 2 ∧
      (Position.locate "a /* one\ntwo */ b // c\nd".toList
        ((SourceMap.ofEdits (commentEdits "a /* one\ntwo */ b // c\nd".toList)).toSource 7)).line =
          2 := by
  have houtput : withoutComments "a /* one\ntwo */ b // c\nd".toList = "a \n b \nd".toList := by rfl
  have hcopied :
      (SourceMap.ofEdits (commentEdits "a /* one\ntwo */ b // c\nd".toList)).Copies 7 := by
    unfold SourceMap.Copies
    decide +kernel
  have hline : (Position.locate "a \n b \nd".toList 7).line = 2 := by rfl
  have hkept := (withoutComments_keeps_lines "a /* one\ntwo */ b // c\nd".toList).1 7 hcopied
  rw [houtput, hline] at hkept
  exact ⟨houtput, hcopied, hline, hkept.symm⟩

end ElementScript
