import ElementScript.Proofs.Text.Place
import ElementScript.Scan.Call

/-!
# Calls and what surrounds them

A call is a marker, blanks, and a parenthesis (`callAt?_eq_some_iff`). What is read off the text
behind a handler block stays inside it.
-/

namespace ElementScript

namespace Text

/-! ### Runs of blanks -/

variable {gap t : Text} {c : Char}

theorem blanks_append_cons (hgap : ∀ d ∈ gap, isBlank d) (hc : ¬ isBlank c) :
    blanks (gap ++ c :: t) = gap := by
  rw [blanks, List.takeWhile_append_of_pos (by simpa using hgap),
    List.takeWhile_cons_of_neg (by simpa using hc), List.append_nil]

theorem trimStart_append_cons (hgap : ∀ d ∈ gap, isBlank d) (hc : ¬ isBlank c) :
    trimStart (gap ++ c :: t) = c :: t := by
  rw [trimStart, List.dropWhile_append_of_pos (by simpa using hgap),
    List.dropWhile_cons_of_neg (by simpa using hc)]

theorem isBlank_of_mem_blanks (h : c ∈ blanks t) : isBlank c := by
  have hall : (t.takeWhile isBlank).all isBlank := List.all_takeWhile
  exact List.all_eq_true.mp hall c h

/-- Letters and digits in ASCII are no blanks. -/
theorem not_isBlank_of_isAlphanum (h : c.isAlphanum) : ¬ isBlank c := by
  have hrange : 48 ≤ c.toNat ∧ c.toNat ≤ 122 := by
    rcases Bool.or_eq_true_iff.mp h with halpha | hdigit
    · rcases Bool.or_eq_true_iff.mp halpha with hupper | hlower
      · have hrange : 65 ≤ c.toNat ∧ c.toNat ≤ 90 := of_decide_eq_true hupper
        omega
      · obtain ⟨hleft, hright⟩ := Bool.and_eq_true_iff.mp hlower
        have hle : 97 ≤ c.toNat := of_decide_eq_true hleft
        have hge : c.toNat ≤ 122 := of_decide_eq_true hright
        omega
    · obtain ⟨hleft, hright⟩ := Bool.and_eq_true_iff.mp hdigit
      have hle : 48 ≤ c.toNat := of_decide_eq_true hleft
      have hge : c.toNat ≤ 57 := of_decide_eq_true hright
      omega
  simp only [isBlank, Bool.or_eq_true, Bool.and_eq_true, decide_eq_true_eq, beq_iff_eq]
  omega

/-- No character that an ASCII identifier may go on with is a blank. -/
theorem not_isBlank_of_isIdentifierPart (h : isIdentifierPart c) : ¬ isBlank c := by
  simp only [isIdentifierPart, Bool.or_eq_true, beq_iff_eq] at h
  rcases h with (halphanum | rfl) | rfl
  · exact not_isBlank_of_isAlphanum halphanum
  · decide
  · decide

end Text

/-! ### Calls -/

/-- A marker, blanks and a parenthesis make a call. -/
theorem callAt?_append {marker gap : Text} (hne : marker ≠ []) (hgap : ∀ c ∈ gap, Text.isBlank c)
    (t : Text) :
    callAt? marker (marker ++ (gap ++ '(' :: t)) = some ⟨marker ++ gap, '(' :: t⟩ := by
  have hparen : ¬ Text.isBlank '(' := by decide
  have hempty : ¬ marker.isEmpty := by simpa using hne
  have hprefix : marker.isPrefixOf (marker ++ (gap ++ '(' :: t)) :=
    List.isPrefixOf_iff_prefix.mpr (List.prefix_append _ _)
  have hopens : opensCall ('(' :: t) = true := rfl
  unfold callAt?
  rw [if_neg hempty, if_pos hprefix, List.drop_left]
  dsimp only
  rw [Text.trimStart_append_cons hgap hparen, Text.blanks_append_cons hgap hparen, if_pos hopens]

/-- A call is made of nothing else. -/
theorem callAt?_eq_some {marker text : Text} {call : Call} (h : callAt? marker text = some call) :
    marker ≠ [] ∧ text = call.head ++ call.args ∧
      (∃ gap, call.head = marker ++ gap ∧ ∀ c ∈ gap, Text.isBlank c) ∧
      ∃ t, call.args = '(' :: t := by
  unfold callAt? at h
  by_cases hempty : marker.isEmpty
  · rw [if_pos hempty] at h
    cases h
  · rw [if_neg hempty] at h
    by_cases hprefix : marker.isPrefixOf text
    · rw [if_pos hprefix] at h
      obtain ⟨after, rfl⟩ := List.isPrefixOf_iff_prefix.mp hprefix
      rw [List.drop_left] at h
      by_cases hopens : opensCall (Text.trimStart after)
      · rw [if_pos hopens] at h
        cases h
        refine ⟨by simpa using hempty, ?_, ⟨_, rfl, fun c hc => Text.isBlank_of_mem_blanks hc⟩, ?_⟩
        · rw [List.append_assoc, Text.blanks_append_trimStart]
        · unfold opensCall at hopens
          split at hopens
          · rename_i t ht
            exact ⟨t, ht⟩
          · cases hopens
      · rw [if_neg hopens] at h
        cases h
    · rw [if_neg hprefix] at h
      cases h

/-- The start of a text is a call of a marker if and only if the marker, blanks and a parenthesis
stand there. -/
theorem callAt?_eq_some_iff {marker text : Text} {call : Call} :
    callAt? marker text = some call ↔
      marker ≠ [] ∧ text = call.head ++ call.args ∧
        (∃ gap, call.head = marker ++ gap ∧ ∀ c ∈ gap, Text.isBlank c) ∧
        ∃ t, call.args = '(' :: t := by
  constructor
  · exact callAt?_eq_some
  · intro h
    obtain ⟨hne, rfl, ⟨gap, hhead, hgap⟩, t, hargs⟩ := h
    have hcall := callAt?_append hne hgap t
    rw [← List.append_assoc, ← hhead, ← hargs] at hcall
    exact hcall

theorem head_ne_nil_of_callAt? {marker text : Text} {call : Call}
    (h : callAt? marker text = some call) : call.head ≠ [] := by
  obtain ⟨hne, -, ⟨gap, hhead, -⟩, -⟩ := callAt?_eq_some_iff.mp h
  rw [hhead]
  simp [hne]

/-- Where a marker does not stand, nothing calls it. -/
theorem callAt?_eq_none {marker text : Text} (h : ¬ marker <+: text) :
    callAt? marker text = none := by
  have hprefix : ¬ marker.isPrefixOf text := fun hp => h (List.isPrefixOf_iff_prefix.mp hp)
  unfold callAt?
  rw [if_neg hprefix, ite_self]

/-- What was passed before a search is put in front of what it passes. -/
theorem seekCall_passed (marker : Text) (boundary : Bool) (passed t : Text) :
    seekCall marker boundary passed t =
      (seekCall marker boundary [] t).map fun found => (passed.reverse ++ found.1, found.2) := by
  induction t generalizing boundary passed with
  | nil => rfl
  | cons c t ih =>
      rw [seekCall, seekCall]
      split
      · simp
      · rw [ih _ (c :: passed), ih _ [c], Option.map_map]
        simp [Function.comp_def]

/-- Where the marker is not called all through a text that ends in a blank, the search goes on
behind it as at the start of a text. -/
theorem seekCall_append {marker : Text} {c : Char} (hc : Text.isBlank c) {boundary : Bool}
    {p t : Text} (h : ∀ r, r <:+ p → callAt? marker (r ++ c :: t) = none) :
    seekCall marker boundary [] (p ++ c :: t) =
      (seekCall marker true [] t).map fun found => (p ++ c :: found.1, found.2) := by
  induction p generalizing boundary with
  | nil =>
      have hhere : callAt? marker (c :: t) = none := h [] (List.suffix_refl [])
      rw [List.nil_append, seekCall, hhere, ite_self, hc]
      exact seekCall_passed marker true [c] t
  | cons d p ih =>
      have htail : ∀ r, r <:+ p → callAt? marker (r ++ c :: t) = none :=
        fun r hr => h r (hr.trans (List.suffix_cons d p))
      have hhere : callAt? marker (d :: (p ++ c :: t)) = none := h (d :: p) (List.suffix_refl _)
      rw [List.cons_append, seekCall, hhere, ite_self]
      dsimp only
      rw [seekCall_passed, ih htail, Option.map_map]
      rfl

/-! ### Behind a handler block -/

/-- Another argument begins at a proper place of the text behind the block. -/
theorem strayArgument?_isPlace {t : Text} {n : Nat} (h : strayArgument? t = some n) :
    t.IsPlace n := by
  unfold strayArgument? at h
  split at h
  · rename_i rest hrest
    split at h
    · cases h
    · cases h
      refine ⟨Text.blanks t ++ ',' :: Text.blanks rest, Text.trimStart rest, ?_, ?_⟩
      · rw [List.append_assoc, List.cons_append, Text.blanks_append_trimStart, ← hrest,
          Text.blanks_append_trimStart]
      · have hcomma : ','.utf8Size = 1 := by decide
        simp [hcomma, Nat.add_assoc]
  · cases h

/-- The end of a call is split off the front of the text. -/
theorem splitCallEnd_prefix (t : Text) : (splitCallEnd t).1 <+: t :=
  ⟨(splitCallEnd t).2, splitCallEnd_append t⟩

end ElementScript
