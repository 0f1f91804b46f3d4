import Mathlib.Data.List.Chain
import ElementScript.Proofs.Comment
import ElementScript.Proofs.Cut

/-!
# Words that edits keep

No pass changes a script in the middle of a word: what it replaces begins at a boundary, or a blank
follows what it puts there (`Edit.Separated`). So a word of the edited text whose first character is
found in nothing that the edits put there was kept in one piece (`Edit.Separated.keeps_word`).
-/

namespace ElementScript

namespace Edit

/-! ### Edits between words -/

/-- Each replacement begins at a boundary of the edited text, or it and what follows it begin with a
blank; and none writes the character `first`. `boundary` says whether the text starts at one. -/
def Separated (first : Char) (boundary : Bool) : List Edit → Prop
  | [] => True
  | .keep c :: es => Separated first (Text.isBlank c) es
  | .replace _ new :: es =>
    first ∉ new ∧ (boundary ∨ ∀ c t, new ++ output es = c :: t → Text.isBlank c) ∧
      Separated first (stopBoundary false boundary new) es

variable {first : Char} {boundary : Bool} {edits : List Edit} {before word tail : Text}

/-- What is left of a word is kept, as no edit begins inside of it. -/
theorem Separated.exists_keepAll (h : Separated first false edits)
    (hword : ∀ c ∈ word, ¬ Text.isBlank c) (houtput : output edits = word ++ tail) :
    ∃ es, edits = keepAll word ++ es := by
  induction word generalizing edits with
  | nil => exact ⟨edits, rfl⟩
  | cons c word ih =>
      obtain ⟨hc, hrest⟩ := List.forall_mem_cons.mp hword
      cases edits with
      | nil => cases houtput
      | cons e es =>
          cases e with
          | keep d =>
              obtain ⟨rfl, htail⟩ := List.cons.inj houtput
              have hd : Text.isBlank d = false := Bool.not_eq_true _ ▸ hc
              rw [Separated, hd] at h
              obtain ⟨es', rfl⟩ := ih h hrest htail
              exact ⟨es', rfl⟩
          | replace old new =>
              obtain ⟨-, hblank, -⟩ := h
              rcases hblank with hboundary | hblank
              · cases hboundary
              · exact absurd (hblank c (word ++ tail) houtput) hc

/-- A word of the edited text was kept in one piece, if no edit writes its first character. -/
theorem Separated.keeps_word (h : Separated first boundary edits)
    (hword : ∀ c ∈ first :: word, ¬ Text.isBlank c)
    (houtput : output edits = before ++ (first :: word ++ tail)) :
    ∃ es fs, edits = es ++ (keepAll (first :: word) ++ fs) ∧ output es = before := by
  induction edits generalizing boundary before with
  | nil => simp at houtput
  | cons e es ih =>
      cases e with
      | keep d =>
          cases before with
          | nil =>
              obtain ⟨rfl, htail⟩ := List.cons.inj houtput
              obtain ⟨hd, hrest⟩ := List.forall_mem_cons.mp hword
              have hblank : Text.isBlank d = false := Bool.not_eq_true _ ▸ hd
              rw [Separated, hblank] at h
              obtain ⟨fs, rfl⟩ := h.exists_keepAll hrest htail
              exact ⟨[], fs, rfl, rfl⟩
          | cons c before =>
              obtain ⟨rfl, htail⟩ := List.cons.inj houtput
              obtain ⟨es', fs, rfl, rfl⟩ := ih h htail
              exact ⟨.keep d :: es', fs, rfl, rfl⟩
      | replace old new =>
          obtain ⟨hfirst, -, hrest⟩ := h
          have hnew : new ++ output es = before ++ (first :: word ++ tail) := houtput
          rcases Text.append_eq_append_cases hnew with ⟨b, rfl, hbehind⟩ | ⟨a, ha, rfl, hbehind⟩
          · obtain ⟨es', fs, rfl, rfl⟩ := ih hrest hbehind
            exact ⟨.replace old new :: es', fs, rfl, rfl⟩
          · -- The word would begin in what the edit wrote.
            obtain ⟨c, a, rfl⟩ := List.exists_cons_of_ne_nil ha
            obtain ⟨rfl, -⟩ := List.cons.inj hbehind
            simp at hfirst

theorem separated_keepAll (t : Text) :
    Separated first boundary (keepAll t ++ edits) ↔
      Separated first (stopBoundary false boundary t) edits := by
  induction t generalizing boundary with
  | nil => rfl
  | cons c t ih =>
      rw [stopBoundary_cons, Bool.false_or]
      exact ih

end Edit

/-! ### Cuts and lifecycle markers -/

section Sweeps

open Edit

variable {first : Char}

/-- Calls are cut out at boundaries, and where they were is a boundary again. -/
theorem CutsThrough.separated_edits {marker t rest : Text} {cuts : List Cut}
    (h : CutsThrough marker t cuts rest) :
    Separated first true (Cut.edits cuts ++ keepAll rest) := by
  induction h with
  | @start t =>
      have hkeep : Separated first true (keepAll t ++ []) := (separated_keepAll t).mpr trivial
      rwa [List.append_nil] at hkeep
  | @cut c after rest cuts huncalled hboundary hcall hhandler behind ih =>
      have hgap : stopBoundary false true c.gap = true := by
        rw [endsAtBoundary] at hboundary
        cases hlast : c.gap.getLast? with
        | none => rw [stopBoundary, hlast, Option.elim_none]
        | some d =>
            rw [hlast] at hboundary
            rw [stopBoundary, hlast]
            exact hboundary
      rw [Cut.edits_cons, List.append_assoc, List.cons_append, separated_keepAll, hgap]
      exact ⟨List.not_mem_nil, Or.inl rfl, ih⟩

/-- Lifecycle markers are replaced at boundaries, up to the parenthesis. -/
theorem separated_lifecycleEdits {v : Vocabulary} (hfirst : ∀ entry ∈ v.lifecycle,
    first ∉ entry.callback) (hparen : first ≠ '(') (script : Text) :
    Separated first true (lifecycleEdits v script) := by
  have hswept {boundary : Bool} {t : Text} {r : Except Fault (List (Step LifecycleEntry))}
      (h : Swept (fun text => .ok (lifecycleAt? v text)) false boundary t r)
      {steps : List (Step LifecycleEntry)} (hr : r = .ok steps) :
      Separated first boundary (Step.edits steps) := by
    induction h generalizing steps with
    | nil =>
        cases hr
        trivial
    | keep hnone rest ih =>
        obtain ⟨more, hmore, rfl⟩ := resume_eq_ok_iff.mp hr
        exact ih hmore
    | @found x t _ hold hfound rest ih =>
        obtain ⟨more, hmore, rfl⟩ := resume_eq_ok_iff.mp hr
        obtain ⟨entry, hentry, hcall⟩ :=
          List.exists_of_findSome?_eq_some (Except.ok.inj hfound)
        obtain ⟨call, -, rfl⟩ := Option.map_eq_some_iff.mp hcall
        have htail := ih hmore
        dsimp only at htail
        rw [stopBoundary_concat] at htail
        refine ⟨?_, Or.inl rfl, ?_⟩
        · intro hmem
          rcases List.mem_append.mp hmem with hmem | hmem
          · exact hfirst entry hentry hmem
          · exact hparen (List.mem_singleton.mp hmem)
        · rw [stopBoundary_concat]
          exact htail
    | fault hfault => cases hr
  exact hswept (swept_lifecycleSteps v script) rfl

end Sweeps

/-! ### Comments -/

namespace Edit

/-- The edit keeps a character, or all that it writes is blank. -/
def KeepsOrBlanks (e : Edit) : Prop := (∃ c, e = .keep c) ∨ ∀ c ∈ e.after, Text.isBlank c

/-- Behind an edit that writes nothing, none writes anything but blanks. -/
def IsFollowedBy (e e' : Edit) : Prop := e.after = [] → ∀ c ∈ e'.after, Text.isBlank c

variable {first : Char} {edits : List Edit} {e : Edit}

/-- What is written behind an edit that writes nothing begins with a blank. -/
theorem isBlank_of_isFollowedBy (h : List.IsChain IsFollowedBy (e :: edits)) (he : e.after = [])
    {c : Char} {t : Text} (houtput : output edits = c :: t) : Text.isBlank c := by
  induction edits generalizing e with
  | nil => cases houtput
  | cons e' es ih =>
      obtain ⟨hfollows, htail⟩ := List.isChain_cons_cons.mp h
      rw [output_cons] at houtput
      cases hafter : e'.after with
      | nil =>
          rw [hafter] at houtput
          exact ih htail hafter houtput
      | cons d u =>
          rw [hafter] at houtput
          obtain ⟨rfl, -⟩ := List.cons.inj houtput
          exact hfollows he d (by simp [hafter])

theorem separated_of_isChain (hfirst : ¬ Text.isBlank first)
    (hblanks : ∀ e ∈ edits, e.KeepsOrBlanks) (h : List.IsChain IsFollowedBy edits)
    (boundary : Bool) : Separated first boundary edits := by
  induction edits generalizing boundary with
  | nil => trivial
  | cons e es ih =>
      obtain ⟨he, hrest⟩ := List.forall_mem_cons.mp hblanks
      have htail := ih hrest h.of_cons
      cases e with
      | keep c => exact htail _
      | replace old new =>
          have hnew : ∀ c ∈ new, Text.isBlank c := by
            rcases he with ⟨c, hc⟩ | hblank
            · cases hc
            · exact hblank
          refine ⟨fun hmem => hfirst (hnew first hmem), Or.inr ?_, htail _⟩
          intro c t hc
          cases new with
          | nil => exact isBlank_of_isFollowedBy h rfl hc
          | cons d new =>
              obtain ⟨rfl, -⟩ := List.cons.inj hc
              exact hnew d List.mem_cons_self

end Edit

namespace CommentState

/-- What has been written of a script, the last edit first: characters that are kept, and blanks;
only in a line comment was nothing written by the last edit. -/
structure Spaced (s : CommentState) : Prop where
  blanks : ∀ e ∈ s.edits, e.KeepsOrBlanks
  chain : List.IsChain (fun e' e => e.IsFollowedBy e') s.edits
  last : ∀ e ∈ s.edits.head?, e.after = [] → s.mode = .line

theorem spaced_start : start.Spaced := by
  refine ⟨?_, .nil, ?_⟩
  · intro e he
    cases he
  · intro e he
    cases he

namespace Spaced

variable {s : CommentState} {mode : CommentMode} {edits : List Edit} {e : Edit}

/-- One more edit may be written, blanks only in a line comment. -/
theorem cons_edit (h : Spaced ⟨mode, edits⟩) (he : e.KeepsOrBlanks)
    (hline : mode = .line → ∀ c ∈ e.after, Text.isBlank c) {mode' : CommentMode}
    (hmode' : e.after = [] → mode' = .line) : Spaced ⟨mode', e :: edits⟩ := by
  refine ⟨List.forall_mem_cons.mpr ⟨he, h.blanks⟩, ?_, ?_⟩
  · refine List.isChain_cons.mpr ⟨fun last hlast hnothing => ?_, h.chain⟩
    exact hline (h.last last hlast hnothing)
  · intro last hlast hnothing
    cases hlast
    exact hmode' hnothing

/-- Outside of line comments the mode may change without an edit. -/
theorem change_mode (h : Spaced ⟨mode, edits⟩) (hmode : mode ≠ .line) (mode' : CommentMode) :
    Spaced ⟨mode', edits⟩ :=
  ⟨h.blanks, h.chain, fun last hlast hnothing => absurd (h.last last hlast hnothing) hmode⟩

theorem spaced_step (h : s.Spaced) (c : Char) : (s.step c).Spaced := by
  obtain ⟨mode, edits⟩ := s
  have hkeep (d : Char) : (Edit.keep d).KeepsOrBlanks := Or.inl ⟨d, rfl⟩
  have hdrop (old : Text) : (Edit.replace old []).KeepsOrBlanks :=
    Or.inr (List.forall_mem_nil _)
  have hsome (d : Char) : (Edit.keep d).after ≠ [] := List.cons_ne_nil d []
  unfold CommentState.step
  cases mode with
  | script quotes =>
      dsimp only
      split
      · exact h.change_mode (by simp) _
      · exact h.cons_edit (hkeep c) (by simp) fun hnothing => absurd hnothing (hsome c)
  | slash =>
      dsimp only
      split
      · exact h.cons_edit (hdrop _) (by simp) fun _ => rfl
      · split
        · exact h.change_mode (by simp) _
        · have hslash : Spaced ⟨.slash, .keep '/' :: edits⟩ :=
            h.cons_edit (hkeep '/') (by simp) fun hnothing => absurd hnothing (hsome '/')
          exact hslash.cons_edit (hkeep c) (by simp) fun hnothing => absurd hnothing (hsome c)
  | line =>
      dsimp only
      split
      · -- The line feed that ends the comment is a blank.
        rename_i hnewline
        refine h.cons_edit (hkeep c) (fun _ d hd => ?_) fun hnothing => absurd hnothing (hsome c)
        rw [List.mem_singleton.mp hd, hnewline]
        decide
      · exact h.cons_edit (hdrop _) (fun _ => List.forall_mem_nil _) fun _ => rfl
  | block seen star =>
      dsimp only
      split
      · obtain ⟨hne, hblank⟩ := commentRemains_blank (c :: seen).reverse
        have hremains : (Edit.replace (c :: seen).reverse
            (commentRemains (c :: seen).reverse)).KeepsOrBlanks := Or.inr hblank
        exact h.cons_edit hremains (by simp) fun hnothing => absurd hnothing hne
      · exact h.change_mode (by simp) _

theorem spaced_run (h : s.Spaced) (t : Text) : (s.run t).Spaced := by
  induction t generalizing s with
  | nil => exact h
  | cons c t ih => exact ih (h.spaced_step c)

/-- All edits, when the script ends. -/
theorem isChain_finish (h : s.Spaced) :
    (∀ e ∈ s.finish, e.KeepsOrBlanks) ∧ List.IsChain Edit.IsFollowedBy s.finish := by
  have hreverse {s : CommentState} (h : s.Spaced) : (∀ e ∈ s.edits.reverse, e.KeepsOrBlanks) ∧
      List.IsChain Edit.IsFollowedBy s.edits.reverse :=
    ⟨fun e he => h.blanks e (List.mem_reverse.mp he), List.isChain_reverse.mpr h.chain⟩
  have hpush {e : Edit} (h : Spaced ⟨.line, e :: s.edits⟩) :
      (∀ e' ∈ s.edits.reverse ++ [e], e'.KeepsOrBlanks) ∧
        List.IsChain Edit.IsFollowedBy (s.edits.reverse ++ [e]) := by
    have hall := hreverse h
    rwa [List.reverse_cons] at hall
  obtain ⟨mode, edits⟩ := s
  cases mode with
  | script quotes =>
      have hall := hreverse h
      rwa [← List.append_nil (List.reverse _)] at hall
  | slash => exact hpush (h.cons_edit (Or.inl ⟨'/', rfl⟩) (by simp) fun _ => rfl)
  | line =>
      have hall := hreverse h
      rwa [← List.append_nil (List.reverse _)] at hall
  | block seen star =>
      exact hpush (h.cons_edit (Or.inr (List.forall_mem_nil _)) (by simp) fun _ => rfl)

end Spaced

end CommentState

/-- Comments are taken out between words. -/
theorem separated_commentEdits {first : Char} (hfirst : ¬ Text.isBlank first) (script : Text) :
    Edit.Separated first true (commentEdits script) := by
  obtain ⟨hblanks, hchain⟩ := (CommentState.spaced_start.spaced_run script).isChain_finish
  exact Edit.separated_of_isChain hfirst hblanks hchain true

end ElementScript
