import ElementScript.Comment

/-!
# Scripts without comments

An edit of the comment scan keeps a character or makes the text shorter
(`CommentState.Shrinking`). So if a script comes out of the scan as it went in, every character of
it was kept, and the scan has nothing more in mind at its end than a slash or a literal
(`CommentState.run_of_withoutComments_eq`). Outside of literals and block comments a line feed ends
all that the scan has in mind, and what stands behind it is scanned like a script of its own
(`commentEdits_append_newline`).
-/

namespace ElementScript

/-! ### Edits that keep or shrink -/

namespace Edit

/-- The edit leaves less than it covers. -/
def Shrinks (e : Edit) : Prop := e.after.length < e.before.length

/-- The edit keeps a character, or it leaves less than it covers. -/
def KeepsOrShrinks (e : Edit) : Prop := (∃ c, e = .keep c) ∨ e.Shrinks

theorem keepsOrShrinks_keep (c : Char) : (keep c).KeepsOrShrinks := Or.inl ⟨c, rfl⟩

variable {edits : List Edit}

theorem length_output_le (h : ∀ e ∈ edits, e.KeepsOrShrinks) :
    (output edits).length ≤ (source edits).length := by
  induction edits with
  | nil => exact Nat.le_refl 0
  | cons e es ih =>
      have htail := ih fun e' he' => h e' (List.mem_cons_of_mem e he')
      rw [output_cons, source_cons, List.length_append, List.length_append]
      rcases h e List.mem_cons_self with ⟨c, rfl⟩ | hshrinks
      · exact Nat.add_le_add_left htail 1
      · unfold Shrinks at hshrinks
        omega

/-- Edits that keep or shrink, and leave the text as long as it was, keep all of it. -/
theorem eq_keepAll_of_length_eq (h : ∀ e ∈ edits, e.KeepsOrShrinks)
    (hlength : (output edits).length = (source edits).length) : edits = keepAll (source edits) := by
  induction edits with
  | nil => rfl
  | cons e es ih =>
      have htail : ∀ e' ∈ es, e'.KeepsOrShrinks := fun e' he' => h e' (List.mem_cons_of_mem e he')
      have hle := length_output_le htail
      rw [output_cons, source_cons, List.length_append, List.length_append] at hlength
      rcases h e List.mem_cons_self with ⟨c, rfl⟩ | hshrinks
      · have hone : (keep c).after.length = (keep c).before.length := rfl
        rw [source_cons, keepAll, before, List.singleton_append, List.map_cons, ← keepAll,
          ← ih htail (by omega)]
      · unfold Shrinks at hshrinks
        omega

end Edit

/-! ### What the scan has written -/

/-- A block comment leaves less than it is. -/
theorem length_commentRemains_lt (u : Text) :
    (commentRemains ('/' :: '*' :: (u ++ ['/']))).length < ('/' :: '*' :: (u ++ ['/'])).length := by
  have hfilter : ('/' :: '*' :: (u ++ ['/'])).filter (· == '\n') = u.filter (· == '\n') := by
    simp
  have hle := List.length_filter_le (· == '\n') u
  unfold commentRemains
  rw [hfilter]
  split
  · simp
  · simp only [List.length_cons, List.length_append, List.length_nil]
    omega

/-- What a block comment leaves behind is blank, and is not nothing. -/
theorem commentRemains_blank (comment : Text) :
    commentRemains comment ≠ [] ∧ ∀ c ∈ commentRemains comment, Text.isBlank c := by
  unfold commentRemains
  split
  · exact ⟨by decide, List.all_eq_true.mp (by decide)⟩
  · rename_i hne
    refine ⟨hne, fun c hc => ?_⟩
    have hnewline : c = '\n' := by simpa using (List.mem_filter.mp hc).2
    rw [hnewline]
    decide

/-- What a mode says about the edits written so far: in a line comment, something was dropped; in a
block comment, the mark that opens it is still held back. -/
def CommentMode.Fits (edits : List Edit) : CommentMode → Prop
  | .script _ => True
  | .slash => True
  | .line => ∃ old new, .replace old new ∈ edits
  | .block seen _ => ∃ u, seen = u ++ ['*', '/']

namespace CommentState

/-- All that the scan has written keeps or shrinks. -/
structure Shrinking (s : CommentState) : Prop where
  edits : ∀ e ∈ s.edits, e.KeepsOrShrinks
  mode : s.mode.Fits s.edits

theorem shrinking_start : start.Shrinking := by
  refine ⟨?_, trivial⟩
  intro e he
  cases he

/-- One step of the scan writes nothing longer than what it covers. -/
theorem Shrinking.shrinking_step {s : CommentState} (h : s.Shrinking) (c : Char) :
    (s.step c).Shrinking := by
  obtain ⟨mode, edits⟩ := s
  obtain ⟨hedits, hmode⟩ := h
  have hcons {e : Edit} (he : e.KeepsOrShrinks) {es : List Edit}
      (hes : ∀ e ∈ es, e.KeepsOrShrinks) : ∀ e' ∈ e :: es, e'.KeepsOrShrinks :=
    List.forall_mem_cons.mpr ⟨he, hes⟩
  unfold CommentState.step
  cases mode with
  | script quotes =>
      dsimp only
      split
      · exact ⟨hedits, trivial⟩
      · exact ⟨hcons (Edit.keepsOrShrinks_keep c) hedits, trivial⟩
  | slash =>
      dsimp only
      split
      · have hdrop : Edit.Shrinks (.replace ['/', '/'] []) := Nat.zero_lt_two
        exact ⟨hcons (Or.inr hdrop) hedits, _, _, List.mem_cons_self⟩
      · split
        · exact ⟨hedits, [], rfl⟩
        · exact ⟨hcons (Edit.keepsOrShrinks_keep c) (hcons (Edit.keepsOrShrinks_keep '/') hedits),
            trivial⟩
  | line =>
      obtain ⟨old, new, hdropped⟩ := hmode
      dsimp only
      split
      · exact ⟨hcons (Edit.keepsOrShrinks_keep c) hedits, trivial⟩
      · have hdrop : Edit.Shrinks (.replace [c] []) := Nat.zero_lt_one
        exact ⟨hcons (Or.inr hdrop) hedits, old, new, List.mem_cons_of_mem _ hdropped⟩
  | block seen star =>
      obtain ⟨u, rfl⟩ := hmode
      dsimp only
      split
      · -- The slash ends the comment, of which its newlines remain or a space.
        rename_i hclose
        have hslash : c = '/' := by simpa using (Bool.and_eq_true_iff.mp hclose).2
        have hcomment : (c :: (u ++ ['*', '/'])).reverse = '/' :: '*' :: (u.reverse ++ ['/']) := by
          rw [hslash]
          simp
        have hshrinks : Edit.Shrinks (.replace (c :: (u ++ ['*', '/'])).reverse
            (commentRemains (c :: (u ++ ['*', '/'])).reverse)) := by
          rw [hcomment]
          exact length_commentRemains_lt u.reverse
        exact ⟨hcons (Or.inr hshrinks) hedits, trivial⟩
      · exact ⟨hedits, c :: u, rfl⟩

theorem Shrinking.shrinking_run {s : CommentState} (h : s.Shrinking) (t : Text) :
    (s.run t).Shrinking := by
  induction t generalizing s with
  | nil => exact h
  | cons c t ih => exact ih (h.shrinking_step c)

/-- So do all edits, when the script ends. -/
theorem Shrinking.keepsOrShrinks_finish {s : CommentState} (h : s.Shrinking) :
    ∀ e ∈ s.finish, e.KeepsOrShrinks := by
  obtain ⟨mode, edits⟩ := s
  obtain ⟨hedits, hmode⟩ := h
  intro e he
  rcases List.mem_append.mp he with hwritten | hpending
  · exact hedits e (List.mem_reverse.mp hwritten)
  · cases mode with
    | script quotes => cases hpending
    | slash =>
        rw [List.mem_singleton.mp hpending]
        exact Edit.keepsOrShrinks_keep '/'
    | line => cases hpending
    | block seen star =>
        obtain ⟨u, rfl⟩ := hmode
        rw [List.mem_singleton.mp hpending]
        refine Or.inr ?_
        show 0 < (u ++ ['*', '/']).reverse.length
        simp

/-! ### Scripts that come out as they went in -/

variable {p : Text}

/-- Every character of a script without comments is kept. -/
theorem commentEdits_of_withoutComments_eq (h : withoutComments p = p) :
    commentEdits p = Edit.keepAll p := by
  have hlength : (Edit.output (commentEdits p)).length =
      (Edit.source (commentEdits p)).length := by
    rw [source_commentEdits]
    exact congrArg List.length h
  have hkeep : commentEdits p = Edit.keepAll (Edit.source (commentEdits p)) :=
    Edit.eq_keepAll_of_length_eq (shrinking_start.shrinking_run p).keepsOrShrinks_finish hlength
  rwa [source_commentEdits] at hkeep

/-- At the end of such a script, all of it is written, or all but a slash. -/
theorem run_of_withoutComments_eq (h : withoutComments p = p) :
    (∃ quotes, start.run p = ⟨.script quotes, (Edit.keepAll p).reverse⟩) ∨
      ∃ u, p = u ++ ['/'] ∧ start.run p = ⟨.slash, (Edit.keepAll u).reverse⟩ := by
  have hfinish : (start.run p).finish = Edit.keepAll p := commentEdits_of_withoutComments_eq h
  have hshrinking := shrinking_start.shrinking_run p
  have hreplace (old new : Text) : .replace old new ∉ Edit.keepAll p := by
    simp [Edit.keepAll]
  rcases hrun : start.run p with ⟨mode, edits⟩
  rw [hrun] at hfinish hshrinking
  cases mode with
  | script quotes =>
      have hedits : edits.reverse = Edit.keepAll p := by
        rw [← hfinish]
        exact (List.append_nil _).symm
      rw [← hedits, List.reverse_reverse]
      exact Or.inl ⟨quotes, rfl⟩
  | slash =>
      -- The slash is kept when the script ends, so it is the last character.
      obtain ⟨u, w, rfl, hu, hw⟩ := List.map_eq_append_iff.mp hfinish.symm
      obtain ⟨c, rfl, hc⟩ := List.map_eq_singleton_iff.mp hw
      cases hc
      have hedits : edits = (Edit.keepAll u).reverse := by
        rw [Edit.keepAll, hu, List.reverse_reverse]
      rw [hedits]
      exact Or.inr ⟨u, rfl, rfl⟩
  | line =>
      obtain ⟨old, new, hdropped⟩ := hshrinking.mode
      refine absurd ?_ (hreplace old new)
      rw [← hfinish]
      exact List.mem_append_left _ (List.mem_reverse.mpr hdropped)
  | block seen star =>
      refine absurd ?_ (hreplace seen.reverse [])
      rw [← hfinish]
      exact List.mem_append_right _ List.mem_cons_self

/-! ### The text behind -/

/-- What the scan writes does not depend on what it has written. -/
theorem run_append_edits (s : CommentState) (edits : List Edit) (t : Text) :
    { s with edits := s.edits ++ edits }.run t =
      { s.run t with edits := (s.run t).edits ++ edits } := by
  induction t generalizing s with
  | nil => rfl
  | cons c t ih =>
      have hstep : { s with edits := s.edits ++ edits }.step c =
          { s.step c with edits := (s.step c).edits ++ edits } := by
        unfold CommentState.step
        cases s.mode with
        | script quotes =>
            dsimp only
            split <;> rfl
        | slash =>
            dsimp only
            split
            · rfl
            · split <;> rfl
        | line =>
            dsimp only
            split <;> rfl
        | block seen star =>
            dsimp only
            split <;> rfl
      rw [run_cons, run_cons, hstep, ih]

/-- The edits that were written before stand in front of those of the text read. -/
theorem edits_run (s : CommentState) (t : Text) :
    (s.run t).edits = ((⟨s.mode, []⟩ : CommentState).run t).edits ++ s.edits :=
  congrArg edits (run_append_edits ⟨s.mode, []⟩ s.edits t)

theorem finish_run (s : CommentState) (t : Text) :
    (s.run t).finish = s.edits.reverse ++ ((⟨s.mode, []⟩ : CommentState).run t).finish := by
  have hrun : s.run t = { (⟨s.mode, []⟩ : CommentState).run t with
      edits := ((⟨s.mode, []⟩ : CommentState).run t).edits ++ s.edits } :=
    run_append_edits ⟨s.mode, []⟩ s.edits t
  rw [hrun, finish, List.reverse_append, List.append_assoc]
  rfl

end CommentState

/-- The state of the scan with regard to literals. -/
def CommentMode.quotes : CommentMode → QuoteState
  | .script quotes => quotes
  | _ => .code

/-- A line feed ends what the scan is in: it stands in no literal, and in no block comment. -/
def CommentMode.EndsWithLine : CommentMode → Prop
  | .script quotes => quotes.quote = none
  | .slash => True
  | .line => True
  | .block _ _ => False

/-- A line feed makes the scan write what it held back, and leaves it in code. -/
theorem CommentState.step_newline {s : CommentState} (h : s.mode.EndsWithLine) :
    s.step '\n' = ⟨.script .code, .keep '\n' :: s.finish.reverse⟩ := by
  obtain ⟨mode, edits⟩ := s
  cases mode with
  | script quotes =>
      -- A backslash at the end of the line escapes the line feed, and no more.
      obtain ⟨quote, escaped⟩ := quotes
      obtain rfl : quote = none := h
      cases escaped <;> simp [step, finish, pending, QuoteState.inCode, QuoteState.step,
        QuoteState.code, Text.isQuote]
  | slash => simp [step, finish, pending, QuoteState.step, QuoteState.code, Text.isQuote]
  | line => simp [step, finish, pending]
  | block seen star => cases h

/-- Behind a line feed that ends what the scan is in, the text is scanned by itself. -/
theorem commentEdits_append_newline {a : Text}
    (h : (CommentState.start.run a).mode.EndsWithLine) (b : Text) :
    commentEdits (a ++ '\n' :: b) = commentEdits a ++ .keep '\n' :: commentEdits b := by
  rw [commentEdits, CommentState.run_append, CommentState.run_cons, CommentState.step_newline h,
    CommentState.finish_run, List.reverse_cons, List.reverse_reverse, List.append_assoc,
    List.singleton_append]
  rfl

/-- Behind a script without comments whose scan ends outside of literals, the text from the next
line on is scanned by itself, and the script is kept. -/
theorem commentEdits_newline_append {p : Text} (h : withoutComments p = p)
    (hcode : (CommentState.start.run p).mode.quotes = .code) (t : Text) :
    commentEdits (p ++ '\n' :: t) = Edit.keepAll (p ++ ['\n']) ++ commentEdits t := by
  have hends : (CommentState.start.run p).mode.EndsWithLine := by
    rcases CommentState.run_of_withoutComments_eq h with ⟨quotes, hrun⟩ | ⟨u, rfl, hrun⟩
    · rw [hrun] at hcode ⊢
      obtain rfl : quotes = .code := hcode
      rfl
    · rw [hrun]
      trivial
  rw [commentEdits_append_newline hends, CommentState.commentEdits_of_withoutComments_eq h,
    Edit.keepAll_append, List.append_assoc]
  rfl

end ElementScript
