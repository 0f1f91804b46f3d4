import ElementScript.Proofs.Text.Place
import ElementScript.Scan.BraceState

/-!
# Balanced texts

A text is balanced if the flat scanner, started in code, ends in code at the depth at which it
started and never got below it (`Text.IsBalanced`). Since a scan depends on its starting depth only
by carrying it through, balance may be used at any depth. Bodies of blocks are exactly the balanced
texts before a closing brace (`closeBlock_eq_ok_iff`), and a block that is not closed is one whose
scan stays inside (`closeBlock_eq_error_iff`).
-/

namespace ElementScript

namespace BraceState

/-! ### Scans that stay above a depth -/

/-- The scan of the text from the state is never below the depth `floor`. -/
def StaysAbove (s : BraceState) (floor : Int) (t : Text) : Prop :=
  ∀ u, u <+: t → floor ≤ (s.run u).depth

variable {s : BraceState} {floor : Int} {c : Char} {t u : Text}

@[simp] theorem staysAbove_nil : s.StaysAbove floor [] ↔ floor ≤ s.depth := by
  simp [StaysAbove, List.prefix_nil]

theorem staysAbove_cons :
    s.StaysAbove floor (c :: t) ↔ floor ≤ s.depth ∧ (s.step c).StaysAbove floor t := by
  constructor
  · intro h
    refine ⟨h [] List.nil_prefix, ?_⟩
    intro u hu
    exact h (c :: u) (List.cons_prefix_cons.mpr ⟨rfl, hu⟩)
  · intro hspec u hu
    obtain ⟨hs, ht⟩ := hspec
    rcases List.prefix_cons_iff.mp hu with rfl | ⟨v, rfl, hv⟩
    · exact hs
    · exact ht v hv

theorem staysAbove_append :
    s.StaysAbove floor (t ++ u) ↔ s.StaysAbove floor t ∧ (s.run t).StaysAbove floor u := by
  induction t generalizing s with
  | nil =>
      refine ⟨fun h => ⟨staysAbove_nil.mpr (h [] List.nil_prefix), h⟩, fun h => h.2⟩
  | cons c t ih => simp [staysAbove_cons, ih, and_assoc]

theorem StaysAbove.le_depth (h : s.StaysAbove floor t) : floor ≤ s.depth := h [] List.nil_prefix

/-- How high a scan stays depends on where it starts. -/
theorem staysAbove_depth_add (n : Int) :
    { s with depth := s.depth + n }.StaysAbove (floor + n) t ↔ s.StaysAbove floor t := by
  simp only [StaysAbove, run_depth_add]
  refine forall_congr' fun u => imp_congr_right fun _ => ?_
  omega

@[simp] theorem atDepth_depth (d : Int) : (atDepth d).depth = d := rfl

@[simp] theorem atDepth_inCode (d : Int) : (atDepth d).inCode = true := rfl

theorem eq_atDepth_of_inCode (h : s.inCode) : s = atDepth s.depth := by
  have hcode : s.toQuoteState = QuoteState.code := QuoteState.inCode_iff.mp h
  cases s with
  | mk quotes depth =>
      dsimp only at hcode
      rw [hcode]
      rfl

theorem atDepth_add (d n : Int) :
    ({ atDepth d with depth := (atDepth d).depth + n } : BraceState) = atDepth (d + n) := rfl

end BraceState

/-! ### Plain characters -/

theorem Text.ne_backslash_of_isQuote {c : Char} (h : isQuote c) : c ≠ '\\' := by
  intro heq
  rw [heq] at h
  cases h

namespace QuoteState

/-- The literal that the scan is in, if any, was opened by a quote. -/
def IsProper (s : QuoteState) : Prop := ∀ q, s.quote = some q → Text.isQuote q

theorem isProper_code : code.IsProper := by
  intro q hq
  cases hq

theorem IsProper.isProper_step {s : QuoteState} (hs : s.IsProper) (c : Char) :
    (s.step c).IsProper := by
  unfold QuoteState.step
  split
  · exact hs
  · split
    · exact hs
    · split
      · split
        · exact isProper_code
        · exact hs
      · split
        · rename_i hc
          intro q hq
          cases hq
          exact hc
        · exact hs

theorem IsProper.isProper_run {s : QuoteState} (hs : s.IsProper) (t : Text) :
    (s.run t).IsProper := by
  induction t generalizing s with
  | nil => exact hs
  | cons c t ih => exact ih (hs.isProper_step c)

end QuoteState

namespace BraceState

variable {s : BraceState} {floor : Int} {c : Char} {t u : Text}

/-- A character that is neither a brace, nor a quote, nor a backslash. -/
def isPlain (c : Char) : Bool := c != '\x7b' && c != '\x7d' && c != '\\' && !Text.isQuote c

/-- The characters of a class are plain if it has none of the few that are not. -/
theorem isPlain_of_class {p : Char → Bool}
    (hp : ['\x7b', '\x7d', '\\', '\"', '\'', '\x60'].all fun d => !p d) (hc : p c) : isPlain c := by
  have hne (d : Char) (hd : d ∈ ['\x7b', '\x7d', '\\', '\"', '\'', '\x60']) : c ≠ d := by
    intro heq
    have hpd := List.all_eq_true.mp hp d hd
    rw [← heq, hc] at hpd
    cases hpd
  simp only [List.forall_mem_cons, ne_eq] at hne
  obtain ⟨hopen, hclose, hslash, hdouble, hsingle, hback, -⟩ := hne
  simp [isPlain, Text.isQuote, hopen, hclose, hslash, hdouble, hsingle, hback]

/-- A plain character does no more than take up an escape. -/
theorem step_of_isPlain (hc : isPlain c) (hs : s.IsProper) :
    s.step c = { s with escaped := false } := by
  simp only [isPlain, Bool.and_eq_true, bne_iff_ne, ne_eq, Bool.not_eq_true'] at hc
  obtain ⟨⟨⟨hopen, hclose⟩, hslash⟩, hquote⟩ := hc
  obtain ⟨⟨quote, escaped⟩, depth⟩ := s
  cases escaped with
  | true => simp [step, QuoteState.step, QuoteState.inCode]
  | false =>
      cases quote with
      | none => simp [step, QuoteState.step, weight, hopen, hclose, hslash, hquote]
      | some q =>
          -- Only the quote that opened the literal can end it, and `c` is no quote.
          have hcq : c ≠ q := by
            intro heq
            subst heq
            simp [hs c rfl] at hquote
          simp [step, QuoteState.step, QuoteState.inCode, hslash, hcq]

/-- A plain text does so too, unless it is empty. -/
theorem run_of_isPlain (ht : ∀ c ∈ t, isPlain c) (hne : t ≠ []) (hs : s.IsProper) :
    s.run t = { s with escaped := false } := by
  induction t generalizing s with
  | nil => exact absurd rfl hne
  | cons c t ih =>
      have hstep : s.step c = { s with escaped := false } :=
        step_of_isPlain (ht c List.mem_cons_self) hs
      rw [run_cons, hstep]
      by_cases htail : t = []
      · rw [htail, run_nil]
      · exact ih (fun d hd => ht d (List.mem_cons_of_mem c hd)) htail hs

/-- No plain text changes the depth. -/
theorem staysAbove_of_isPlain (ht : ∀ c ∈ t, isPlain c) (hs : s.IsProper) (h : floor ≤ s.depth) :
    s.StaysAbove floor t := by
  intro u hu
  by_cases hne : u = []
  · rw [hne]
    exact h
  · rw [run_of_isPlain (fun c hc => ht c (hu.subset hc)) hne hs]
    exact h

/-! ### Literals -/

section Literals

variable {quote : Char} {escaped : Bool} {depth : Int}

/-- In a literal nothing is counted. -/
theorem step_literal :
    (BraceState.mk ⟨some quote, escaped⟩ depth).step c =
      ⟨QuoteState.step ⟨some quote, escaped⟩ c, depth⟩ := by
  simp [step, QuoteState.inCode]

theorem step_openQuote (hquote : Text.isQuote quote) :
    (atDepth depth).step quote = ⟨⟨some quote, false⟩, depth⟩ := by
  have hweight : weight quote = 0 := by
    simp only [Text.isQuote, Bool.or_eq_true, beq_iff_eq] at hquote
    rcases hquote with (rfl | rfl) | rfl <;> rfl
  simp [step, atDepth, QuoteState.step, QuoteState.code, QuoteState.inCode, hweight, hquote,
    Text.ne_backslash_of_isQuote hquote]

theorem step_closeQuote (hslash : quote ≠ '\\') :
    (BraceState.mk ⟨some quote, false⟩ depth).step quote = atDepth depth := by
  simp [step_literal, QuoteState.step, hslash, atDepth]

theorem step_literal_of_ne (hslash : c ≠ '\\') (hquote : c ≠ quote) :
    (BraceState.mk ⟨some quote, false⟩ depth).step c = ⟨⟨some quote, false⟩, depth⟩ := by
  simp [step_literal, QuoteState.step, hslash, hquote]

end Literals

end BraceState

/-- Where no escape waits, a plain text leaves a scan for literals as it is. -/
theorem QuoteState.run_of_isPlain {s : QuoteState} {t : Text} (ht : ∀ c ∈ t, BraceState.isPlain c)
    (hs : s.IsProper) (hescaped : s.escaped = false) : s.run t = s := by
  have hflat : (⟨s, 0⟩ : BraceState).run t = ⟨s, 0⟩ := by
    by_cases hne : t = []
    · rw [hne, BraceState.run_nil]
    · rw [BraceState.run_of_isPlain ht hne hs, ← hescaped]
  rw [← BraceState.run_toQuoteState ⟨s, 0⟩, hflat]

/-! ### Balance -/

/-- The flat scanner, started in code, ends in code at the depth at which it started, and is never
below that depth. -/
def Text.IsBalanced (t : Text) : Prop :=
  (BraceState.atDepth 0).StaysAbove 0 t ∧ (BraceState.atDepth 0).run t = .atDepth 0

namespace Text

open BraceState

variable {t u : Text}

theorem IsBalanced.run_atDepth (h : t.IsBalanced) (d : Int) : (atDepth d).run t = atDepth d := by
  have hrun := run_depth_add (atDepth 0) d t
  rw [h.2, atDepth_add, Int.zero_add] at hrun
  exact hrun

theorem IsBalanced.staysAbove (h : t.IsBalanced) (d : Int) : (atDepth d).StaysAbove d t := by
  have hstays := (staysAbove_depth_add d).mpr h.1
  rw [atDepth_add, Int.zero_add] at hstays
  exact hstays

/-- Balance may be established at any depth. -/
theorem isBalanced_of_atDepth {d : Int} (hstays : (atDepth d).StaysAbove d t)
    (hrun : (atDepth d).run t = atDepth d) : t.IsBalanced := by
  have hstays' := (staysAbove_depth_add (-d)).mpr hstays
  have hrun' := run_depth_add (atDepth d) (-d) t
  rw [atDepth_add, Int.add_right_neg] at hstays' hrun'
  rw [hrun, atDepth_add, Int.add_right_neg] at hrun'
  exact ⟨hstays', hrun'⟩

theorem isBalanced_nil : IsBalanced [] := ⟨staysAbove_nil.mpr (Int.le_refl 0), rfl⟩

theorem IsBalanced.append (ht : t.IsBalanced) (hu : u.IsBalanced) : IsBalanced (t ++ u) := by
  refine ⟨staysAbove_append.mpr ⟨ht.1, ?_⟩, ?_⟩
  · rw [ht.2]
    exact hu.1
  · rw [run_append, ht.2, hu.2]

/-- What follows a balanced text is balanced if the whole is. -/
theorem IsBalanced.of_append (ht : t.IsBalanced) (h : IsBalanced (t ++ u)) : u.IsBalanced := by
  obtain ⟨hstays, hrun⟩ := h
  rw [staysAbove_append, ht.2] at hstays
  rw [run_append, ht.2] at hrun
  exact ⟨hstays.2, hrun⟩

/-- A body in braces, with the text behind it. -/
theorem braces_append (body u : Text) :
    '{' :: (body ++ '}' :: u) = '{' :: (body ++ ['}']) ++ u := by
  simp

/-- A balanced text in braces is balanced. -/
theorem IsBalanced.braces (h : t.IsBalanced) : IsBalanced ('{' :: (t ++ ['}'])) := by
  have hopen : (atDepth 0).step '{' = atDepth 1 := rfl
  have hclose : (atDepth 1).step '}' = atDepth 0 := rfl
  refine ⟨staysAbove_cons.mpr ⟨Int.le_refl 0, ?_⟩, ?_⟩
  · rw [hopen, staysAbove_append, h.run_atDepth, staysAbove_cons, hclose, staysAbove_nil]
    refine ⟨fun u hu => ?_, by simp, by simp⟩
    have := h.staysAbove 1 u hu
    omega
  · rw [run_cons, hopen, run_append, h.run_atDepth, run_cons, hclose, run_nil]

/-- A text without braces, quotes and backslashes is balanced. -/
theorem isBalanced_of_isPlain (h : ∀ c ∈ t, isPlain c) : t.IsBalanced := by
  refine ⟨staysAbove_of_isPlain h QuoteState.isProper_code (Int.le_refl 0), ?_⟩
  by_cases hne : t = []
  · rw [hne, run_nil]
  · rw [run_of_isPlain h hne QuoteState.isProper_code]
    rfl

theorem isBalanced_of_all (h : t.all isPlain) : t.IsBalanced :=
  isBalanced_of_isPlain (List.all_eq_true.mp h)

end Text

/-! ### Blocks -/

namespace BraceState

variable {s : BraceState} {c : Char} {t : Text}

/-- Only a brace in code can bring a positive depth to zero. -/
theorem step_depth_eq_zero_iff (hs : 0 < s.depth) :
    (s.step c).depth = 0 ↔ s = atDepth 1 ∧ c = '}' := by
  constructor
  · intro h
    simp only [step] at h
    by_cases hcode : s.inCode
    · rw [if_pos hcode, weight] at h
      split at h
      · omega
      · split at h
        · rename_i hc
          have hdepth : s.depth = 1 := by omega
          have hs := eq_atDepth_of_inCode hcode
          rw [hdepth] at hs
          exact ⟨hs, hc⟩
        · omega
    · rw [if_neg hcode] at h
      omega
  · intro hspec
    obtain ⟨rfl, rfl⟩ := hspec
    rfl

theorem neg_one_le_weight (c : Char) : -1 ≤ weight c := by
  unfold weight
  split
  · omega
  · split <;> omega

/-- A step that does not bring a positive depth to zero keeps it positive. -/
theorem step_depth_pos (hs : 0 < s.depth) (h : (s.step c).depth ≠ 0) : 0 < (s.step c).depth := by
  have hweight := neg_one_le_weight c
  simp only [step] at h ⊢
  by_cases hcode : s.inCode
  · rw [if_pos hcode] at h ⊢
    omega
  · rw [if_neg hcode] at h ⊢
    omega

end BraceState

open BraceState

/-- The walk to the end of a block passes over a body that stays inside the block and ends at its
own depth. -/
theorem closeFrom_append {s : BraceState} {u : Text} (hstays : s.StaysAbove 1 u)
    (hrun : s.run u = atDepth 1) (passed rest : Text) :
    closeFrom s passed (u ++ '}' :: rest) = .ok (passed.reverse ++ u, rest) := by
  induction u generalizing s passed with
  | nil =>
      rw [run_nil] at hrun
      have hclose : ((atDepth 1).step '}').depth = 0 := rfl
      rw [List.nil_append, closeFrom, hrun, if_pos hclose, List.append_nil]
  | cons c u ih =>
      obtain ⟨-, htail⟩ := staysAbove_cons.mp hstays
      have hopen : ¬ (s.step c).depth = 0 := by
        have hpos := htail.le_depth
        omega
      rw [List.cons_append, closeFrom, if_neg hopen, ih htail hrun]
      simp

/-- It ends at the first brace that is read in code at depth one. -/
theorem closeFrom_eq_ok {s : BraceState} {passed t body rest : Text} (hs : 0 < s.depth)
    (h : closeFrom s passed t = .ok (body, rest)) :
    ∃ u, body = passed.reverse ++ u ∧ t = u ++ '}' :: rest ∧ s.StaysAbove 1 u ∧
      s.run u = atDepth 1 := by
  induction t generalizing s passed with
  | nil => cases h
  | cons c t ih =>
      rw [closeFrom] at h
      by_cases hzero : (s.step c).depth = 0
      · rw [if_pos hzero] at h
        cases h
        obtain ⟨rfl, rfl⟩ := (step_depth_eq_zero_iff hs).mp hzero
        exact ⟨[], (List.append_nil _).symm, rfl, staysAbove_nil.mpr (Int.le_refl 1), rfl⟩
      · rw [if_neg hzero] at h
        obtain ⟨u, rfl, rfl, hstays, hrun⟩ := ih (step_depth_pos hs hzero) h
        exact ⟨c :: u, by simp, rfl, staysAbove_cons.mpr ⟨hs, hstays⟩, hrun⟩

/-- The walk fails on the texts along which the depth stays positive. -/
theorem closeFrom_eq_error_iff {s e : BraceState} {passed t : Text} (hs : 0 < s.depth) :
    closeFrom s passed t = .error e ↔ s.StaysAbove 1 t ∧ e = s.run t := by
  induction t generalizing s passed with
  | nil =>
      simp only [closeFrom, Except.error.injEq, staysAbove_nil, run_nil]
      constructor
      · intro heq
        subst heq
        exact ⟨hs, rfl⟩
      · intro hspec
        obtain ⟨-, rfl⟩ := hspec
        rfl
  | cons c t ih =>
      rw [closeFrom]
      by_cases hzero : (s.step c).depth = 0
      · rw [if_pos hzero, staysAbove_cons]
        constructor
        · intro h
          cases h
        · intro hspec
          obtain ⟨⟨-, hstays⟩, -⟩ := hspec
          have := hstays.le_depth
          omega
      · rw [if_neg hzero, ih (step_depth_pos hs hzero), staysAbove_cons, run_cons]
        constructor
        · intro hspec
          obtain ⟨hstays, rfl⟩ := hspec
          exact ⟨⟨hs, hstays⟩, rfl⟩
        · intro hspec
          obtain ⟨⟨-, hstays⟩, rfl⟩ := hspec
          exact ⟨hstays, rfl⟩

/-- A block closes behind the balanced text that a closing brace follows. -/
theorem closeBlock_eq_ok_iff {t body rest : Text} :
    closeBlock t = .ok (body, rest) ↔ t = body ++ '}' :: rest ∧ body.IsBalanced := by
  constructor
  · intro h
    obtain ⟨u, rfl, rfl, hstays, hrun⟩ := closeFrom_eq_ok Int.zero_lt_one h
    exact ⟨rfl, Text.isBalanced_of_atDepth hstays hrun⟩
  · intro h
    obtain ⟨rfl, hbody⟩ := h
    exact closeFrom_append (hbody.staysAbove 1) (hbody.run_atDepth 1) [] rest

/-- A block is left open by the texts whose scan stays inside it. -/
theorem closeBlock_eq_error_iff {t : Text} {e : BraceState} :
    closeBlock t = .error e ↔ (atDepth 1).StaysAbove 1 t ∧ e = (atDepth 1).run t :=
  closeFrom_eq_error_iff (by simp)

/-! ### Where the fault of an open block stands -/

theorem openingQuoteFrom_isPlace {pre t : Text} {s : QuoteState} {opened : Nat}
    (h : (pre ++ t).IsPlace opened) :
    (pre ++ t).IsPlace (openingQuoteFrom s (Text.byteSize pre) opened t) := by
  induction t generalizing pre s opened with
  | nil => exact h
  | cons c t ih =>
      rw [openingQuoteFrom]
      have hpre : Text.byteSize pre + c.utf8Size = Text.byteSize (pre ++ [c]) := by simp
      have happend : pre ++ c :: t = (pre ++ [c]) ++ t := by simp
      rw [hpre, happend]
      apply ih
      rw [← happend]
      split
      · exact Text.isPlace_byteSize_append pre (c :: t)
      · exact h

/-- The fault of an open block stands at a proper place of the block, its brace included. -/
theorem unclosedBlock_isPlace (s : BraceState) (t : Text) :
    Text.IsPlace ('{' :: t) (unclosedBlock s t).offset := by
  unfold unclosedBlock
  split
  · have hzero : Text.IsPlace (['{'] ++ t) 0 := Text.isPlace_zero _
    exact openingQuoteFrom_isPlace hzero
  · exact Text.isPlace_zero _

end ElementScript
