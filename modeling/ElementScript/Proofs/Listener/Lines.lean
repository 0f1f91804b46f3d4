import ElementScript.Proofs.Cut

/-!
# Listeners of scripts on lines of their own

A listener is read from the text of its call, and whatever is looked at behind the call is a sign of
its end: a parenthesis, a comma or a semicolon. So where a line feed follows, and the next sign is
none of these, a call is read as it is without the text behind (`Listener.at?_append`), and nothing
becomes a call that was none (`Listener.at?_eq_none_append`). A sweep over one script and then
another on lines of its own is one sweep after the other (`liftListeners_append_line`).
-/

namespace ElementScript

/-! ### Text behind a call -/

/-- The first sign in the text is none that a call may go on or end with. -/
def Text.isDetached (t : Text) : Bool :=
  (trimStart t).head?.all fun c => c != '(' && c != ')' && c != ',' && c != ';'

/-- Text behind blanks or behind anything else. -/
theorem Text.trimStart_append_cases (t after : Text) :
    (trimStart t = [] ∧ trimStart (t ++ after) = trimStart after) ∨
      ∃ c u, trimStart t = c :: u ∧ trimStart (t ++ after) = c :: (u ++ after) ∧
        blanks (t ++ after) = blanks t := by
  induction t with
  | nil => exact Or.inl ⟨rfl, rfl⟩
  | cons c t ih =>
      by_cases hc : isBlank c
      · simpa [trimStart, blanks, hc] using ih
      · exact Or.inr ⟨c, t, by simp [trimStart, hc], by simp [trimStart, hc], by simp [blanks, hc]⟩

section

variable {t after : Text}

/-- Detached text does not begin with the sign, nor does it behind blanks. -/
theorem Text.trimStart_ne_of_isDetached (h : after.isDetached) {c : Char}
    (hc : c ∈ ['(', ')', ',', ';']) (u : Text) : trimStart after ≠ c :: u := by
  intro htrim
  rw [isDetached, htrim] at h
  simp only [List.mem_cons, List.not_mem_nil, or_false] at hc
  rcases hc with rfl | rfl | rfl | rfl <;> simp at h

theorem strayArgument?_append_eq_none (h : strayArgument? t = none) (hafter : after.isDetached) :
    strayArgument? (t ++ after) = none := by
  unfold strayArgument? at h ⊢
  rcases Text.trimStart_append_cases t after with ⟨-, hend⟩ | ⟨c, u, ht, hend, -⟩
  · rw [hend]
    split
    · rename_i rest hrest
      exact absurd hrest (Text.trimStart_ne_of_isDetached hafter (by simp) rest)
    · rfl
  · rw [ht] at h
    rw [hend]
    by_cases hcomma : c = ','
    · subst hcomma
      rcases Text.trimStart_append_cases u after with ⟨hu, -⟩ | ⟨d, w, hu, hend', -⟩
      · simp [hu] at h
      · by_cases hparen : d = ')'
        · subst hparen
          simp [hend']
        · simp [hu, hparen] at h
    · simp [hcomma]

/-- What is split off behind the lead of a call's end, from the parenthesis on, and the rest. -/
def callClosing (lead t : Text) : Text × Text :=
  match Text.trimStart t with
  | ';' :: rest => (lead ++ ')' :: (Text.blanks t ++ [';']), rest)
  | _ => (lead ++ [')'], t)

theorem callClosing_append_fst (hafter : after.isDetached) (lead : Text) :
    (callClosing lead (t ++ after)).1 = (callClosing lead t).1 := by
  unfold callClosing
  rcases Text.trimStart_append_cases t after with ⟨ht, hend⟩ | ⟨c, u, ht, hend, hblanks⟩
  · rw [ht, hend]
    split
    · rename_i rest hrest
      exact absurd hrest (Text.trimStart_ne_of_isDetached hafter (by simp) rest)
    · rfl
  · rw [ht, hend, hblanks]
    by_cases hsemicolon : c = ';'
    · subst hsemicolon
      rfl
    · simp [hsemicolon]

/-- Nothing is split off where no sign of a call's end comes first. -/
theorem splitCallEnd_fst_of_ne (h : ∀ c u, Text.trimStart t = c :: u → c ≠ ',' ∧ c ≠ ')') :
    (splitCallEnd t).1 = [] := by
  cases ht : Text.trimStart t with
  | nil => simp [splitCallEnd, ht]
  | cons c u =>
      obtain ⟨hcomma, hparen⟩ := h c u ht
      simp [splitCallEnd, ht, hcomma, hparen]

/-- What is split off as the end of a call is not changed by detached text. -/
theorem splitCallEnd_append_fst (hafter : after.isDetached) :
    (splitCallEnd (t ++ after)).1 = (splitCallEnd t).1 := by
  have hne {u : Text} (hu : Text.trimStart u = Text.trimStart after) (c : Char) (w : Text)
      (htrim : Text.trimStart u = c :: w) : c ≠ ',' ∧ c ≠ ')' := by
    rw [hu] at htrim
    refine ⟨?_, ?_⟩
    · rintro rfl
      exact Text.trimStart_ne_of_isDetached hafter (by simp) w htrim
    · rintro rfl
      exact Text.trimStart_ne_of_isDetached hafter (by simp) w htrim
  rcases Text.trimStart_append_cases t after with ⟨ht, hend⟩ | ⟨c, u, ht, hend, hblanks⟩
  · rw [splitCallEnd_fst_of_ne (hne hend), splitCallEnd_fst_of_ne]
    intro c u hcons
    rw [ht] at hcons
    cases hcons
  · by_cases hcomma : c = ','
    · subst hcomma
      rcases Text.trimStart_append_cases u after with ⟨hu, hend'⟩ | ⟨d, w, hu, hend', hblanks'⟩
      · cases hs : Text.trimStart after with
        | nil => simp [splitCallEnd, ht, hend, hu, hend', hs]
        | cons d w =>
            have hparen := (hne rfl d w hs).2
            simp [splitCallEnd, ht, hend, hu, hend', hs, hparen]
      · by_cases hparen : d = ')'
        · subst hparen
          simp only [splitCallEnd, ht, hend, hblanks, hu, hend', hblanks']
          exact callClosing_append_fst hafter _
        · simp [splitCallEnd, ht, hend, hblanks, hu, hend', hblanks', hparen]
    · by_cases hparen : c = ')'
      · subst hparen
        simp only [splitCallEnd, ht, hend, hblanks]
        exact callClosing_append_fst hafter _
      · simp [splitCallEnd, ht, hend, hblanks, hcomma, hparen]

end

/-! ### A call and the line behind it -/

section

variable {after : Text}

/-- The search for a handler stops at the handler. -/
theorem handler?_append {args : Text} {h : Handler} (hh : handler? args = .ok (some h)) :
    handler? (args ++ after) = .ok (some { h with rest := h.rest ++ after }) := by
  obtain ⟨hargs, hwalk, hbody⟩ := handler?_eq_some_iff.mp hh
  refine handler?_eq_some_iff.mpr ⟨?_, hwalk, hbody⟩
  rw [hargs, List.append_assoc, List.append_assoc]
  rfl

namespace Listener

variable {v : Vocabulary} {text : Text}

/-- A listener is read from its call, whatever stands behind it on other lines. -/
theorem ofHandler_append {call : Call} {h : Handler} {x : Found Listener} {args : Text}
    (hafter : after.isDetached) (hx : ofHandler v call h = .ok x) :
    ofHandler v { call with args := args } { h with rest := h.rest ++ after } = .ok x := by
  have hstray : strayArgument? h.rest = none := by
    cases hstray : strayArgument? h.rest with
    | none => rfl
    | some n =>
        rw [ofHandler, hstray] at hx
        cases hx
  rw [ofHandler, hstray] at hx
  rw [ofHandler, strayArgument?_append_eq_none hstray hafter]
  dsimp only [Handler.block] at hx ⊢
  rw [splitCallEnd_append_fst hafter]
  exact hx

theorem at?_append (hv : ∀ c ∈ v.listenerToken, ¬ Text.isBlank c) (hafter : after.isDetached)
    (hblank : ∀ c t, after = c :: t → Text.isBlank c) {x? : Option (Found Listener)}
    (hx : at? v text = .ok x?) : at? v (text ++ after) = .ok x? := by
  cases x? with
  | none =>
      have hnone := callAt?_eq_none_of_at? hx
      have hopens : ¬ opensCall (Text.trimStart after) := by
        intro hopens
        unfold opensCall at hopens
        split at hopens
        · rename_i u hu
          exact Text.trimStart_ne_of_isDetached hafter (by simp) u hu
        · cases hopens
      have hnone' : callAt? v.listenerToken (text ++ after) = none := by
        cases hcall : callAt? v.listenerToken (text ++ after) with
        | none => rfl
        | some call =>
            obtain ⟨args, hcall'⟩ := callAt?_of_append_blank hv hblank hopens hcall
            rw [hnone] at hcall'
            cases hcall'
      rw [at?, hnone']
  | some x =>
      obtain ⟨call, h, hcall, hh, hof⟩ := at?_eq_some hx
      rw [at?, callAt?_append_text hcall after]
      dsimp only
      rw [ofCall, handler?_append hh]
      dsimp only
      rw [ofHandler_append hafter hof]
      rfl

end Listener

end

/-! ### Scripts on lines of their own -/

/-- The listeners of two scripts, one below the other, are those of the first and then those of the
second, and each script is left as it is by itself, unless the second goes on with a sign that
belongs to the end of a call. -/
theorem liftListeners_append_line {v : Vocabulary} (hv : ∀ c ∈ v.listenerToken, ¬ Text.isBlank c)
    {a b : Text} {x y : LiftedListeners} (ha : liftListeners v a = .ok x)
    (hb : liftListeners v b = .ok y) (hdetached : b.isDetached) :
    ∃ z, liftListeners v (a ++ '\n' :: b) = .ok z ∧
      z.script = x.script ++ '\n' :: y.script ∧ z.listeners = x.listeners ++ y.listeners ∧
      z.edits = x.edits ++ .keep '\n' :: y.edits := by
  obtain ⟨steps, hsteps, rfl⟩ := liftListeners_eq_ok ha
  obtain ⟨steps', hsteps', rfl⟩ := liftListeners_eq_ok hb
  have hnewline : Text.isBlank '\n' := by decide
  have hafter : Text.isDetached ('\n' :: b) := hdetached
  have hblank (c : Char) (t : Text) (h : '\n' :: b = c :: t) : Text.isBlank c := by
    cases h
    exact hnewline
  have hnil : Listener.at? v [] = .ok none := by
    cases hcall : callAt? v.listenerToken [] with
    | none => rw [Listener.at?, hcall]
    | some call => exact absurd rfl (ne_nil_of_callAt? hcall)
  have hsweep : listenerSteps v (a ++ '\n' :: b) = .ok (steps ++ .keep '\n' :: steps') := by
    rw [listenerSteps, sweep_eq_sweepOn, (swept_listenerSteps v a).sweepOn_append hsteps hnewline
      hnil fun u x? hx => Listener.at?_append hv hafter hblank hx]
    rw [← sweep_eq_sweepOn, ← listenerSteps, hsteps', resume_ok]
    simp
  have hedits : Step.edits (steps ++ .keep '\n' :: steps') =
      Step.edits steps ++ .keep '\n' :: Step.edits steps' := by
    simp [Step.edits, Step.edit]
  refine ⟨⟨Step.edits (steps ++ .keep '\n' :: steps'),
    Step.values (steps ++ .keep '\n' :: steps')⟩, ?_, ?_, ?_, hedits⟩
  · rw [liftListeners, hsweep]
    rfl
  · simp only [LiftedListeners.script, hedits, Edit.output_append, Edit.output_cons]
    rfl
  · simp only [Step.values, List.filterMap_append]
    rfl

/-- A call that is not closed, above another one. -/
theorem openCall_append_line :
    ∃ z, liftListeners .standard
        ("m() \x7b\x7d addChangeListener(\"a\", v => \x7b f(v); \x7d".toList ++
          '\n' :: "addChangeListener(\"b\", () => \x7b\x7d);".toList) = .ok z ∧
      z.script = "m() \x7b\x7d \n".toList ∧
      z.listeners =
        [⟨"a".toList, "f(newValue);".toList, none, some "v".toList⟩,
          ⟨"b".toList, [], none, none⟩] := by
  have hx : liftListeners .standard
      "m() \x7b\x7d addChangeListener(\"a\", v => \x7b f(v); \x7d".toList =
        .ok ⟨Edit.keepAll "m() \x7b\x7d ".toList ++
          [.replace "addChangeListener(\"a\", v => \x7b f(v); \x7d".toList []],
          [⟨"a".toList, "f(newValue);".toList, none, some "v".toList⟩]⟩ := by rfl
  have hy : liftListeners .standard "addChangeListener(\"b\", () => \x7b\x7d);".toList =
      .ok ⟨[.replace "addChangeListener(\"b\", () => \x7b\x7d);".toList []],
        [⟨"b".toList, [], none, none⟩]⟩ := by rfl
  have hv : ∀ c ∈ Vocabulary.standard.listenerToken, ¬ Text.isBlank c :=
    not_isBlank_of_all (by decide)
  obtain ⟨z, hz, hscript, hlisteners, -⟩ := liftListeners_append_line hv hx hy (by decide)
  exact ⟨z, hz, hscript, hlisteners⟩

end ElementScript
