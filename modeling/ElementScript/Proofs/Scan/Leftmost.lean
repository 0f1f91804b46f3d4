import ElementScript.Proofs.Scan.Call

/-!
# Text without calls

A text is *uncalled* if no call of the marker starts in it (`Uncalled`). Whether one does depends on
what stands before it, by the boundary at its start, and on what stands behind it, into which a call
may run. A search for a call passes over uncalled text and no other, so the call that it finds is
the leftmost one (`seekCall_leftmost`), and it finds none only if there is none
(`seekCall_eq_none_iff`).
-/

namespace ElementScript

/-! ### Boundaries -/

theorem not_isBlank_of_all {t : Text} (h : t.all fun c => !Text.isBlank c) :
    ∀ c ∈ t, ¬ Text.isBlank c := by
  simpa using h

theorem endsAtBoundary_concat (t : Text) (c : Char) :
    endsAtBoundary (t ++ [c]) = Text.isBlank c := by
  simp [endsAtBoundary]

/-- Whether a place is a boundary is seen from the last character before it. -/
theorem endsAtBoundary_append {u : Text} (hu : u ≠ []) (t : Text) :
    endsAtBoundary (t ++ u) = endsAtBoundary u := by
  rw [endsAtBoundary, endsAtBoundary, List.getLast?_append, List.getLast?_eq_some_getLast hu,
    Option.some_or]

/-- A boundary is the start of a text, or a blank stands in front of it. -/
theorem endsAtBoundary_iff {before : Text} :
    endsAtBoundary before ↔ before = [] ∨ ∃ u c, before = u ++ [c] ∧ Text.isBlank c := by
  constructor
  · intro h
    rcases List.eq_nil_or_concat before with rfl | ⟨u, c, rfl⟩
    · exact Or.inl rfl
    · rw [List.concat_eq_append] at h ⊢
      rw [endsAtBoundary_concat] at h
      exact Or.inr ⟨u, c, rfl, h⟩
  · intro h
    rcases h with rfl | ⟨u, c, rfl, hc⟩
    · rfl
    · rw [endsAtBoundary_concat]
      exact hc

/-- A boundary is one when the text in front is taken away. -/
theorem endsAtBoundary_of_append {t u : Text} (h : endsAtBoundary (t ++ u)) : endsAtBoundary u := by
  by_cases hu : u = []
  · rw [hu]
    rfl
  · rwa [endsAtBoundary_append hu] at h

/-! ### Calls and the text behind them -/

theorem ne_nil_of_callAt? {marker t : Text} {call : Call} (h : callAt? marker t = some call) :
    t ≠ [] := by
  obtain ⟨-, htext, -⟩ := callAt?_eq_some_iff.mp h
  rw [htext]
  simp [head_ne_nil_of_callAt? h]

/-- Whether a text is a call does not depend on what stands behind the parenthesis. -/
theorem callAt?_paren {marker head t : Text}
    (h : callAt? marker (head ++ '(' :: t) = some ⟨head, '(' :: t⟩) (t' : Text) :
    callAt? marker (head ++ '(' :: t') = some ⟨head, '(' :: t'⟩ := by
  obtain ⟨hne, -, hhead, -⟩ := callAt?_eq_some_iff.mp h
  exact callAt?_eq_some_iff.mpr ⟨hne, rfl, hhead, t', rfl⟩

/-- A call read from the front of two texts is read from the first of them already, or its head
covers that. -/
theorem callAt?_append_cases {marker w after : Text} {call : Call}
    (h : callAt? marker (w ++ after) = some call) :
    (∃ args, callAt? marker w = some ⟨call.head, args⟩) ∨
      ∃ r, call.head = w ++ r ∧ after = r ++ call.args := by
  obtain ⟨hne, htext, hhead, t, hargs⟩ := callAt?_eq_some_iff.mp h
  rcases List.append_eq_append_iff.mp htext with ⟨r, hr, hafter⟩ | ⟨r, rfl, hr⟩
  · exact Or.inr ⟨r, hr, hafter⟩
  · cases r with
    | nil => exact Or.inr ⟨[], by simp, hr.symm⟩
    | cons c r =>
        rw [hargs, List.cons_append, List.cons.injEq] at hr
        obtain ⟨rfl, -⟩ := hr
        exact Or.inl ⟨'(' :: r, callAt?_eq_some_iff.mpr ⟨hne, rfl, hhead, r, rfl⟩⟩

/-- A call stays one when more text follows it. -/
theorem callAt?_append_text {marker w : Text} {call : Call} (h : callAt? marker w = some call)
    (after : Text) : callAt? marker (w ++ after) = some ⟨call.head, call.args ++ after⟩ := by
  obtain ⟨hne, htext, hhead, t, hargs⟩ := callAt?_eq_some_iff.mp h
  refine callAt?_eq_some_iff.mpr ⟨hne, ?_, hhead, t ++ after, ?_⟩
  · rw [htext, List.append_assoc]
  · rw [hargs, List.cons_append]

/-- A call does not reach into text that begins with a blank, and not with a parenthesis behind
blanks. -/
theorem callAt?_of_append_blank {marker w after : Text} {call : Call}
    (hmarker : ∀ c ∈ marker, ¬ Text.isBlank c)
    (hblank : ∀ c t, after = c :: t → Text.isBlank c) (hopens : ¬ opensCall (Text.trimStart after))
    (h : callAt? marker (w ++ after) = some call) :
    ∃ args, callAt? marker w = some ⟨call.head, args⟩ := by
  rcases callAt?_append_cases h with hargs | ⟨r, hr, hafter⟩
  · exact hargs
  · obtain ⟨-, -, ⟨blanks, hhead, hblanks⟩, t, hargs⟩ := callAt?_eq_some_iff.mp h
    have hparen : ¬ Text.isBlank '(' := by decide
    -- The head of the call reaches into the text behind with blanks only.
    have hr' : ∀ c ∈ r, Text.isBlank c := by
      rcases List.append_eq_append_iff.mp (hr.symm.trans hhead) with
        ⟨r', hmarker', rfl⟩ | ⟨r', rfl, rfl⟩
      · cases r' with
        | nil => exact hblanks
        | cons c r' =>
            have hc := hblank c _ (by rw [hafter]; rfl)
            exact absurd hc (hmarker c (by simp [hmarker']))
      · exact fun c hc => hblanks c (List.mem_append_right r' hc)
    rw [hafter, hargs, Text.trimStart_append_cons hr' hparen] at hopens
    exact absurd rfl hopens

/-! ### Uncalled text -/

/-- No call of the marker starts in the text `gap`, which stands between `before` and `after`. -/
def Uncalled (marker before gap after : Text) : Prop :=
  ∀ u w, gap = u ++ w → w ≠ [] → endsAtBoundary (before ++ u) → callAt? marker (w ++ after) = none

section Uncalled

variable {marker before gap p q after : Text}

theorem uncalled_nil : Uncalled marker before [] after := by
  intro u w hgap hw
  exact absurd (List.append_eq_nil_iff.mp hgap.symm).2 hw

/-- A text is uncalled if both of its parts are. -/
theorem uncalled_append :
    Uncalled marker before (p ++ q) after ↔
      Uncalled marker before p (q ++ after) ∧ Uncalled marker (before ++ p) q after := by
  constructor
  · intro h
    refine ⟨fun u w hp hw hboundary => ?_, fun u w hq hw hboundary => ?_⟩
    · have hnone := h u (w ++ q) (by rw [hp, List.append_assoc]) (by simp [hw]) hboundary
      rwa [List.append_assoc] at hnone
    · rw [List.append_assoc] at hboundary
      exact h (p ++ u) w (by rw [hq, List.append_assoc]) hw hboundary
  · intro hparts u w hpq hw hboundary
    obtain ⟨hp, hq⟩ := hparts
    rcases Text.append_eq_append_cases hpq with ⟨u', rfl, hq'⟩ | ⟨w', hw', rfl, rfl⟩
    · rw [← List.append_assoc] at hboundary
      exact hq u' w hq' hw hboundary
    · have hnone := hp u w' rfl hw' hboundary
      rwa [← List.append_assoc] at hnone

theorem uncalled_singleton {c : Char} :
    Uncalled marker before [c] after ↔
      (endsAtBoundary before → callAt? marker (c :: after) = none) := by
  constructor
  · intro h hboundary
    exact h [] [c] rfl (List.cons_ne_nil c []) (by rwa [List.append_nil])
  · intro h u w hc hw hboundary
    rcases List.append_eq_singleton_iff.mp hc.symm with ⟨rfl, rfl⟩ | ⟨rfl, rfl⟩
    · rw [List.append_nil] at hboundary
      exact h hboundary
    · exact absurd rfl hw

theorem uncalled_cons {c : Char} :
    Uncalled marker before (c :: p) after ↔
      (endsAtBoundary before → callAt? marker (c :: (p ++ after)) = none) ∧
        Uncalled marker (before ++ [c]) p after := by
  rw [← List.singleton_append, uncalled_append, uncalled_singleton]

/-- What is not called stays so when the text behind it is taken away. -/
theorem Uncalled.of_append_after (h : Uncalled marker before gap after) :
    Uncalled marker before gap [] := by
  intro u w hgap hw hboundary
  have hnone := h u w hgap hw hboundary
  rw [List.append_nil]
  cases hcall : callAt? marker w with
  | none => rfl
  | some call =>
      rw [callAt?_append_text hcall after] at hnone
      cases hnone

/-- Inside a word that does not begin at a boundary, nothing is called. -/
theorem uncalled_of_word (hbefore : ¬ endsAtBoundary before)
    (hgap : ∀ c ∈ gap, ¬ Text.isBlank c) : Uncalled marker before gap after := by
  intro u w hu hw hboundary
  by_cases hnil : u = []
  · rw [hnil, List.append_nil] at hboundary
    exact absurd hboundary hbefore
  · rw [endsAtBoundary_append hnil, endsAtBoundary, List.getLast?_eq_some_getLast hnil] at hboundary
    have hlast : u.getLast hnil ∈ gap := by
      rw [hu]
      exact List.mem_append_left w (List.getLast_mem hnil)
    exact absurd hboundary (hgap _ hlast)

end Uncalled

/-! ### Searches -/

section Searches

variable {marker before passed gap after t : Text} {call : Call}

/-- What a search passes over is uncalled, so it finds the leftmost call. -/
theorem seekCall_leftmost
    (h : seekCall marker (endsAtBoundary before) passed t = some (gap, call)) :
    ∃ u rest, gap = passed.reverse ++ u ∧ t = u ++ rest ∧ Uncalled marker before u rest ∧
      endsAtBoundary (before ++ u) ∧ callAt? marker rest = some call := by
  induction t generalizing before passed with
  | nil => cases h
  | cons c t ih =>
      rw [seekCall] at h
      split at h
      · rename_i found hfound
        cases h
        by_cases hboundary : endsAtBoundary before
        · rw [if_pos hboundary] at hfound
          exact ⟨[], c :: t, by simp, rfl, uncalled_nil, by rwa [List.append_nil], hfound⟩
        · rw [if_neg hboundary] at hfound
          cases hfound
      · rename_i hnone
        rw [← endsAtBoundary_concat before c] at h
        obtain ⟨u, rest, rfl, rfl, huncalled, hboundary, hcall⟩ := ih h
        have hhere : endsAtBoundary before → callAt? marker (c :: (u ++ rest)) = none := by
          intro hb
          rwa [if_pos hb] at hnone
        refine ⟨c :: u, rest, by simp, rfl, uncalled_cons.mpr ⟨hhere, huncalled⟩, ?_, hcall⟩
        rwa [List.append_assoc] at hboundary

/-- A search from the start of a script finds its first call. -/
theorem seekCall_leftmost_of_start (h : seekCall marker true [] t = some (gap, call)) :
    ∃ rest, t = gap ++ rest ∧ Uncalled marker [] gap rest ∧ endsAtBoundary gap ∧
      callAt? marker rest = some call := by
  have hstart : seekCall marker (endsAtBoundary []) [] t = some (gap, call) := h
  obtain ⟨u, rest, rfl, ht, huncalled, hboundary, hcall⟩ := seekCall_leftmost hstart
  exact ⟨rest, ht, huncalled, hboundary, hcall⟩

/-- A search goes through uncalled text and on behind it. -/
theorem seekCall_uncalled (h : Uncalled marker before gap after) (passed : Text) :
    seekCall marker (endsAtBoundary before) passed (gap ++ after) =
      seekCall marker (endsAtBoundary (before ++ gap)) (gap.reverse ++ passed) after := by
  induction gap generalizing before passed with
  | nil => simp
  | cons c gap ih =>
      obtain ⟨hhere, hbehind⟩ := uncalled_cons.mp h
      have hnone : (if endsAtBoundary before then callAt? marker (c :: (gap ++ after)) else none) =
          none := by
        split
        · rename_i hb
          exact hhere hb
        · rfl
      rw [List.cons_append, seekCall, hnone]
      dsimp only
      rw [← endsAtBoundary_concat before c, ih hbehind]
      simp

/-- A call at the start of a text is the leftmost one, if that is a boundary. -/
theorem seekCall_of_callAt? (h : callAt? marker t = some call) (passed : Text) :
    seekCall marker true passed t = some (passed.reverse, call) := by
  obtain ⟨c, u, rfl⟩ := List.exists_cons_of_ne_nil (ne_nil_of_callAt? h)
  rw [seekCall, if_pos rfl, h]

/-- A search finds nothing in uncalled text, and only there. -/
theorem seekCall_eq_none_iff :
    seekCall marker (endsAtBoundary before) passed t = none ↔ Uncalled marker before t [] := by
  constructor
  · intro h
    induction t generalizing before passed with
    | nil => exact uncalled_nil
    | cons c t ih =>
        rw [seekCall] at h
        split at h
        · cases h
        · rename_i hnone
          rw [← endsAtBoundary_concat before c] at h
          refine uncalled_cons.mpr ⟨fun hb => ?_, ih h⟩
          rw [List.append_nil]
          rwa [if_pos hb] at hnone
  · intro h
    rw [← List.append_nil t, seekCall_uncalled h]
    rfl

end Searches

end ElementScript
