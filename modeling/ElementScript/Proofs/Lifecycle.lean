import ElementScript.Proofs.Listener.Rename
import ElementScript.Proofs.PassEdits

/-!
# Lifecycle markers, one entry at a time

The sweep for lifecycle markers is a relation between a script and what it becomes, with one rule
for a character that is kept and one for a marker that is called (`Expands`). Where markers are
words that no callback can be mistaken for (`Vocabulary.IsUnambiguous`), an expansion makes no call:
what is called in its output was called before (`Expands.isCalled`). And it hides none, as calls of
other markers are kept whole (`Expands.keepCall`). So the expansion for some entries goes through
that for a part of them (`Expands.through`), and a vocabulary may be expanded entry by entry, in any
order and with repetitions (`expandLifecycle_one_by_one`).
-/

namespace ElementScript

/-! ### Vocabularies -/

/-- Callbacks are identifiers. Markers are words without a parenthesis in them, and their first
character cannot stand in an identifier. Equal markers stand for equal callbacks. -/
structure Vocabulary.IsUnambiguous (v : Vocabulary) : Prop where
  callback : ∀ entry ∈ v.lifecycle, Text.isIdentifier entry.callback
  nonempty : ∀ entry ∈ v.lifecycle, v.fullMarker entry ≠ []
  unbroken : ∀ entry ∈ v.lifecycle, ∀ c ∈ v.fullMarker entry, ¬ Text.isBlank c ∧ c ≠ '('
  first : ∀ entry ∈ v.lifecycle, ∀ c ∈ (v.fullMarker entry).head?, ¬ Text.isIdentifierPart c
  functional : ∀ entry ∈ v.lifecycle, ∀ entry' ∈ v.lifecycle,
    entry.marker = entry'.marker → entry.callback = entry'.callback

/-- The vocabulary with other lifecycle entries. -/
def Vocabulary.withEntries (v : Vocabulary) (entries : List LifecycleEntry) : Vocabulary :=
  { v with lifecycle := entries }

/-- A marker of the vocabulary is called at the start of the text. -/
def Vocabulary.IsCalled (v : Vocabulary) (text : Text) : Prop :=
  ∃ entry ∈ v.lifecycle, ∃ gap t, (∀ c ∈ gap, Text.isBlank c) ∧
    text = v.fullMarker entry ++ (gap ++ '(' :: t)

section Vocabularies

variable {v : Vocabulary} {entries : List LifecycleEntry} {entry entry' : LifecycleEntry}
  {gap gap' t t' : Text}

/-- In front of the first blank or parenthesis stands a marker that has none of them. -/
theorem takeWhile_of_unbroken {marker : Text} (hmarker : ∀ c ∈ marker, ¬ Text.isBlank c ∧ c ≠ '(')
    (hgap : ∀ c ∈ gap, Text.isBlank c) :
    (marker ++ (gap ++ '(' :: t)).takeWhile (fun c => !Text.isBlank c && c != '(') = marker := by
  have hstop : (gap ++ '(' :: t).takeWhile (fun c => !Text.isBlank c && c != '(') = [] := by
    cases gap with
    | nil => rfl
    | cons c gap => simp [hgap c List.mem_cons_self]
  rw [List.takeWhile_append_of_pos (by simpa using hmarker), hstop, List.append_nil]

namespace Vocabulary.IsUnambiguous

theorem withEntries (hv : v.IsUnambiguous) (hentries : ∀ entry ∈ entries, entry ∈ v.lifecycle) :
    (v.withEntries entries).IsUnambiguous where
  callback entry hentry := hv.callback entry (hentries entry hentry)
  nonempty entry hentry := hv.nonempty entry (hentries entry hentry)
  unbroken entry hentry := hv.unbroken entry (hentries entry hentry)
  first entry hentry := hv.first entry (hentries entry hentry)
  functional entry hentry entry' hentry' :=
    hv.functional entry (hentries entry hentry) entry' (hentries entry' hentry')

/-- One entry is called at a place at most. -/
theorem eq_of_calls (hv : v.IsUnambiguous) (hentry : entry ∈ v.lifecycle)
    (hentry' : entry' ∈ v.lifecycle) (hgap : ∀ c ∈ gap, Text.isBlank c)
    (hgap' : ∀ c ∈ gap', Text.isBlank c)
    (h : v.fullMarker entry ++ (gap ++ '(' :: t) = v.fullMarker entry' ++ (gap' ++ '(' :: t')) :
    entry = entry' := by
  have hfull : v.fullMarker entry = v.fullMarker entry' := by
    rw [← takeWhile_of_unbroken (t := t) (hv.unbroken entry hentry) hgap, h,
      takeWhile_of_unbroken (hv.unbroken entry' hentry') hgap']
  have hmarker : entry.marker = entry'.marker := List.append_cancel_left hfull
  have hcallback := hv.functional entry hentry entry' hentry' hmarker
  cases entry
  cases entry'
  cases hmarker
  cases hcallback
  rfl

/-- A marker does not begin in a blank, in a callback, or with a parenthesis. -/
theorem not_isCalled (hv : v.IsUnambiguous) {c : Char}
    (hc : Text.isIdentifierPart c ∨ Text.isBlank c ∨ c = '(') : ¬ v.IsCalled (c :: t) := by
  intro hcalled
  obtain ⟨entry, hentry, gap, t', -, htext⟩ := hcalled
  obtain ⟨d, marker, hmarker⟩ := List.exists_cons_of_ne_nil (hv.nonempty entry hentry)
  have hunbroken := hv.unbroken entry hentry d (by rw [hmarker]; exact List.mem_cons_self)
  have hfirst := hv.first entry hentry d (by rw [hmarker]; rfl)
  rw [hmarker] at htext
  obtain rfl : c = d := (List.cons.inj htext).1
  rcases hc with hpart | hblank | hparen
  · exact hfirst hpart
  · exact hunbroken.1 hblank
  · exact hunbroken.2 hparen

end Vocabulary.IsUnambiguous

/-! ### Markers that are found -/

/-- What is found is a call of some marker. -/
theorem lifecycleAt?_eq_some {x : Found LifecycleEntry} (h : lifecycleAt? v t = some x) :
    ∃ entry ∈ v.lifecycle, ∃ gap r, (∀ c ∈ gap, Text.isBlank c) ∧
      t = v.fullMarker entry ++ (gap ++ '(' :: r) ∧
      x = ⟨v.fullMarker entry ++ (gap ++ ['(']), entry.callback ++ ['('], entry⟩ := by
  obtain ⟨entry, hentry, hfound⟩ := List.exists_of_findSome?_eq_some h
  obtain ⟨call, hcall, rfl⟩ := Option.map_eq_some_iff.mp hfound
  obtain ⟨-, rfl, ⟨gap, hhead, hgap⟩, r, hargs⟩ := callAt?_eq_some_iff.mp hcall
  refine ⟨entry, hentry, gap, r, hgap, ?_, ?_⟩
  · rw [hhead, hargs, List.append_assoc]
  · rw [hhead, List.append_assoc]

/-- The marker that is called is the one that is found. -/
theorem lifecycleAt?_of_call (hv : v.IsUnambiguous) (hentry : entry ∈ v.lifecycle)
    (hgap : ∀ c ∈ gap, Text.isBlank c) :
    lifecycleAt? v (v.fullMarker entry ++ (gap ++ '(' :: t)) =
      some ⟨v.fullMarker entry ++ (gap ++ ['(']), entry.callback ++ ['('], entry⟩ := by
  cases hfound : lifecycleAt? v (v.fullMarker entry ++ (gap ++ '(' :: t)) with
  | none =>
      have hnone := List.findSome?_eq_none_iff.mp hfound entry hentry
      rw [callAt?_append (hv.nonempty entry hentry) hgap] at hnone
      cases hnone
  | some x =>
      obtain ⟨entry', hentry', gap', r, hgap', htext, rfl⟩ := lifecycleAt?_eq_some hfound
      obtain rfl : entry = entry' := hv.eq_of_calls hentry hentry' hgap hgap' htext
      have hparen : ¬ Text.isBlank '(' := by decide
      have hblanks := congrArg Text.blanks (List.append_cancel_left htext)
      rw [Text.blanks_append_cons hgap hparen, Text.blanks_append_cons hgap' hparen] at hblanks
      rw [hblanks]

theorem lifecycleAt?_eq_none_iff (hv : v.IsUnambiguous) :
    lifecycleAt? v t = none ↔ ¬ v.IsCalled t := by
  constructor
  · intro hnone hcalled
    obtain ⟨entry, hentry, gap, r, hgap, rfl⟩ := hcalled
    rw [lifecycleAt?_of_call hv hentry hgap] at hnone
    cases hnone
  · intro hcalled
    cases hfound : lifecycleAt? v t with
    | none => rfl
    | some x =>
        obtain ⟨entry, hentry, gap, r, hgap, rfl, -⟩ := lifecycleAt?_eq_some hfound
        exact absurd ⟨entry, hentry, gap, r, hgap, rfl⟩ hcalled

end Vocabularies

/-! ### Expansions -/

/-- What a text becomes when its lifecycle markers are expanded, rule by rule. `boundary` says
whether the text starts at a boundary. -/
inductive Expands (v : Vocabulary) : Bool → Text → Text → Prop where
  | nil {boundary : Bool} : Expands v boundary [] []
  /-- No marker is called here, or this is no boundary. -/
  | keep {boundary : Bool} {c : Char} {t u : Text} (hnone : boundary → ¬ v.IsCalled (c :: t))
      (rest : Expands v (Text.isBlank c) t u) : Expands v boundary (c :: t) (c :: u)
  /-- A marker is called, and makes way for its callback. -/
  | call {entry : LifecycleEntry} {gap t u : Text} (hentry : entry ∈ v.lifecycle)
      (hgap : ∀ c ∈ gap, Text.isBlank c) (rest : Expands v false t u) :
      Expands v true (v.fullMarker entry ++ (gap ++ '(' :: t)) (entry.callback ++ '(' :: u)

namespace Expands

variable {v w : Vocabulary} {boundary : Bool} {t u p gap : Text}

/-! #### Expansions and sweeps -/

/-- The sweep goes by the rules. -/
theorem of_swept (hv : v.IsUnambiguous) {r : Except Fault (List (Step LifecycleEntry))}
    (h : Swept (fun text => .ok (lifecycleAt? v text)) false boundary t r)
    {steps : List (Step LifecycleEntry)} (hr : r = .ok steps) :
    Expands v boundary t (Edit.output (Step.edits steps)) := by
  induction h generalizing steps with
  | nil =>
      cases hr
      exact .nil
  | keep hnone rest ih =>
      obtain ⟨more, hmore, rfl⟩ := resume_eq_ok_iff.mp hr
      exact .keep (fun hb => (lifecycleAt?_eq_none_iff hv).mp (Except.ok.inj (hnone hb)))
        (ih hmore)
  | @found x t _ hold hfound rest ih =>
      obtain ⟨more, hmore, rfl⟩ := resume_eq_ok_iff.mp hr
      obtain ⟨entry, hentry, gap, r, hgap, htext, rfl⟩ :=
        lifecycleAt?_eq_some (Except.ok.inj hfound)
      have hrest := ih hmore
      dsimp only at hrest
      rw [← List.append_assoc, stopBoundary_concat] at hrest
      have hcall := Expands.call hentry hgap hrest
      simpa [Step.edits, Step.edit, Edit.after] using hcall
  | fault hfault => cases hr

/-- The rules leave nothing else to the sweep. -/
theorem exists_sweepOn (hv : v.IsUnambiguous) (h : Expands v boundary t u) :
    ∃ steps, sweepOn (fun text => .ok (lifecycleAt? v text)) false boundary t = .ok steps ∧
      Edit.output (Step.edits steps) = u := by
  induction h with
  | nil => exact ⟨[], rfl, rfl⟩
  | @keep boundary c t u hnone rest ih =>
      obtain ⟨steps, hsteps, rfl⟩ := ih
      refine ⟨.keep c :: steps, ?_, rfl⟩
      rw [sweepOn_keep _ _ fun hb => congrArg _ ((lifecycleAt?_eq_none_iff hv).mpr (hnone hb)),
        hsteps, resume_ok, List.singleton_append]
  | @call entry gap t u hentry hgap rest ih =>
      obtain ⟨steps, hsteps, rfl⟩ := ih
      let x : Found LifecycleEntry :=
        ⟨v.fullMarker entry ++ (gap ++ ['(']), entry.callback ++ ['('], entry⟩
      have hfound := lifecycleAt?_of_call (t := t) hv hentry hgap
      have htext : v.fullMarker entry ++ (gap ++ '(' :: t) = x.old ++ t := by simp [x]
      have hstop : stopBoundary false true x.old = false := by
        show stopBoundary false true (v.fullMarker entry ++ (gap ++ ['('])) = false
        rw [← List.append_assoc, stopBoundary_concat]
        rfl
      rw [htext] at hfound ⊢
      refine ⟨.found x :: steps, ?_, ?_⟩
      · rw [sweepOn_found _ _ (by simp [x]) (congrArg _ hfound), hstop, hsteps, resume_ok,
          List.singleton_append]
      · simp [x, Step.edits, Step.edit, Edit.after]

end Expands

/-- Expanding the lifecycle markers of a script is what the rules say. -/
theorem expands_iff {v : Vocabulary} (hv : v.IsUnambiguous) {script u : Text} :
    Expands v true script u ↔ u = expandLifecycle v script := by
  constructor
  · intro h
    obtain ⟨steps, hsteps, rfl⟩ := h.exists_sweepOn hv
    have hsweep : sweepOn (fun text => .ok (lifecycleAt? v text)) false true script =
        .ok (lifecycleSteps v script) := by
      rw [← sweep_eq_sweepOn, sweep_ok]
      rfl
    rw [hsteps] at hsweep
    rw [Except.ok.inj hsweep]
    rfl
  · intro h
    rw [h]
    exact .of_swept hv (swept_lifecycleSteps v script) rfl

namespace Expands

variable {v w : Vocabulary} {boundary : Bool} {c : Char} {t u p gap : Text}

/-! ### What is kept -/

/-- Where no marker begins, all is kept up to a parenthesis. -/
theorem keepParen (hv : v.IsUnambiguous)
    (hp : ∀ c ∈ p, Text.isIdentifierPart c ∨ Text.isBlank c) (rest : Expands v false t u) :
    Expands v boundary (p ++ '(' :: t) (p ++ '(' :: u) := by
  induction p generalizing boundary with
  | nil =>
      have hparen : Text.isBlank '(' = false := by decide
      exact .keep (fun _ => hv.not_isCalled (Or.inr (Or.inr rfl))) (hparen.symm ▸ rest)
  | cons c p ih =>
      obtain ⟨hc, htail⟩ := List.forall_mem_cons.mp hp
      exact .keep (fun _ => hv.not_isCalled (hc.imp_right Or.inl)) (ih htail)

/-- Behind a character that is no blank, there is no boundary. -/
theorem keepLetter (hc : ¬ Text.isBlank c) (hnone : boundary → ¬ v.IsCalled (c :: t))
    (rest : Expands v false t u) : Expands v boundary (c :: t) (c :: u) := by
  rw [Bool.not_eq_true] at hc
  exact .keep hnone (hc.symm ▸ rest)

/-- What is left of a word is kept. -/
theorem keepWord (hp : ∀ c ∈ p, ¬ Text.isBlank c) (rest : Expands v false t u) :
    Expands v false (p ++ t) (p ++ u) := by
  induction p with
  | nil => exact rest
  | cons c p ih =>
      obtain ⟨hc, htail⟩ := List.forall_mem_cons.mp hp
      exact keepLetter hc nofun (ih htail)

/-- A marker that is not in the vocabulary is kept with its parenthesis. -/
theorem keepCall (hv : v.IsUnambiguous) {marker : Text} (hmarker : marker ≠ [])
    (hblank : ∀ c ∈ marker, ¬ Text.isBlank c) (hgap : ∀ c ∈ gap, Text.isBlank c)
    (hnone : ¬ v.IsCalled (marker ++ (gap ++ '(' :: t))) (rest : Expands v false t u) :
    Expands v true (marker ++ (gap ++ '(' :: t)) (marker ++ (gap ++ '(' :: u)) := by
  have hbehind : Expands v false (gap ++ '(' :: t) (gap ++ '(' :: u) :=
    keepParen hv (fun c hc => Or.inr (hgap c hc)) rest
  obtain ⟨c, marker, rfl⟩ := List.exists_cons_of_ne_nil hmarker
  obtain ⟨hc, htail⟩ := List.forall_mem_cons.mp hblank
  exact keepLetter hc (fun _ => hnone) (keepWord htail hbehind)

/-! ### What becomes of calls -/

/-- What is left of a word was there before. -/
theorem exists_word (h : Expands v false t (p ++ u)) (hp : ∀ c ∈ p, ¬ Text.isBlank c) :
    ∃ t', t = p ++ t' ∧ Expands v false t' u := by
  induction p generalizing t with
  | nil => exact ⟨t, rfl, h⟩
  | cons c p ih =>
      obtain ⟨hc, htail⟩ := List.forall_mem_cons.mp hp
      rw [Bool.not_eq_true] at hc
      cases h with
      | keep hnone rest =>
          rw [hc] at rest
          obtain ⟨t', rfl, hrest⟩ := ih rest htail
          exact ⟨t', rfl, hrest⟩

/-- Blanks in front of a parenthesis were there before, as a callback is neither. -/
theorem exists_gap (hv : v.IsUnambiguous) (h : Expands v boundary t (gap ++ '(' :: u))
    (hgap : ∀ c ∈ gap, Text.isBlank c) : ∃ t', t = gap ++ '(' :: t' := by
  have hcallback {entry : LifecycleEntry} (hentry : entry ∈ v.lifecycle) {c : Char} {r r' : Text}
      (hc : Text.isBlank c ∨ c = '(') : entry.callback ++ '(' :: r ≠ c :: r' := by
    intro heq
    have hidentifier := hv.callback entry hentry
    obtain ⟨d, name, hname⟩ :=
      List.exists_cons_of_ne_nil (Text.ne_nil_of_isIdentifier hidentifier)
    have hpart : Text.isIdentifierPart d :=
      Text.isIdentifierPart_of_mem hidentifier d (by rw [hname]; exact List.mem_cons_self)
    rw [hname] at heq
    obtain rfl : d = c := (List.cons.inj heq).1
    rcases hc with hblank | rfl
    · exact Text.not_isBlank_of_isIdentifierPart hpart hblank
    · exact absurd hpart (by decide)
  induction gap generalizing boundary t with
  | nil =>
      generalize htext : ([] : Text) ++ '(' :: u = text at h
      cases h with
      | nil => cases htext
      | keep hnone rest =>
          obtain ⟨rfl, -⟩ := List.cons.inj htext
          exact ⟨_, rfl⟩
      | call hentry _ rest => exact absurd htext.symm (hcallback hentry (Or.inr rfl))
  | cons c gap ih =>
      obtain ⟨hc, htail⟩ := List.forall_mem_cons.mp hgap
      generalize htext : c :: gap ++ '(' :: u = text at h
      cases h with
      | nil => cases htext
      | keep hnone rest =>
          obtain ⟨rfl, rfl⟩ := List.cons.inj htext
          obtain ⟨t', rfl⟩ := ih rest htail
          exact ⟨t', rfl⟩
      | call hentry _ rest => exact absurd htext.symm (hcallback hentry (Or.inl hc))

/-- An expansion makes no call: what is called from a character on that it keeps was called before,
from that character on. -/
theorem isCalled (hv : v.IsUnambiguous) (hw : w.IsUnambiguous)
    (h : Expands v (Text.isBlank c) t u) (hcalled : w.IsCalled (c :: u)) :
    w.IsCalled (c :: t) := by
  obtain ⟨entry, hentry, gap, r, hgap, htext⟩ := hcalled
  obtain ⟨d, marker, hmarker⟩ := List.exists_cons_of_ne_nil (hw.nonempty entry hentry)
  have hblank : ∀ c ∈ d :: marker, ¬ Text.isBlank c := by
    intro c hc
    exact (hw.unbroken entry hentry c (by rw [hmarker]; exact hc)).1
  obtain ⟨hd, htail⟩ := List.forall_mem_cons.mp hblank
  rw [hmarker] at htext
  obtain ⟨rfl, rfl⟩ := List.cons.inj htext
  rw [Bool.not_eq_true] at hd
  rw [hd] at h
  obtain ⟨t', rfl, hbehind⟩ := h.exists_word htail
  obtain ⟨r', rfl⟩ := hbehind.exists_gap hv hgap
  exact ⟨entry, hentry, gap, r', hgap, by rw [hmarker]; rfl⟩

/-! ### One after the other -/

/-- The same entries, in another order or more often, expand a text in the same way. -/
theorem congr {entries : List LifecycleEntry}
    (hentries : ∀ entry, entry ∈ entries ↔ entry ∈ v.lifecycle) (h : Expands v boundary t u) :
    Expands (v.withEntries entries) boundary t u := by
  induction h with
  | nil => exact .nil
  | keep hnone rest ih =>
      refine .keep (fun hb hcalled => ?_) ih
      obtain ⟨entry, hentry, hcall⟩ := hcalled
      exact hnone hb ⟨entry, (hentries entry).mp hentry, hcall⟩
  | @call entry gap t u hentry hgap rest ih =>
      exact Expands.call (v := v.withEntries entries) ((hentries entry).mpr hentry) hgap ih

/-- The expansion for all entries goes through that for a part of them. -/
theorem exists_between (hv : v.IsUnambiguous) {es fs : List LifecycleEntry}
    (hentries : ∀ entry, entry ∈ v.lifecycle ↔ entry ∈ es ∨ entry ∈ fs)
    (h : Expands v boundary t u) :
    ∃ w, Expands (v.withEntries es) boundary t w ∧ Expands (v.withEntries fs) boundary w u := by
  have hes : (v.withEntries es).IsUnambiguous :=
    hv.withEntries fun entry hentry => (hentries entry).mpr (Or.inl hentry)
  have hfs : (v.withEntries fs).IsUnambiguous :=
    hv.withEntries fun entry hentry => (hentries entry).mpr (Or.inr hentry)
  induction h with
  | nil => exact ⟨[], .nil, .nil⟩
  | @keep boundary c t u hnone rest ih =>
      obtain ⟨w, hfirst, hsecond⟩ := ih
      refine ⟨c :: w, .keep (fun hb hcalled => ?_) hfirst, .keep (fun hb hcalled => ?_) hsecond⟩
      · obtain ⟨entry, hentry, hcall⟩ := hcalled
        exact hnone hb ⟨entry, (hentries entry).mpr (Or.inl hentry), hcall⟩
      · obtain ⟨entry, hentry, hcall⟩ := hfirst.isCalled hes hfs hcalled
        exact hnone hb ⟨entry, (hentries entry).mpr (Or.inr hentry), hcall⟩
  | @call entry gap t u hentry hgap rest ih =>
      obtain ⟨w, hfirst, hsecond⟩ := ih
      by_cases hmem : entry ∈ es
      · -- The callback is kept by the second expansion.
        have hidentifier := hv.callback entry hentry
        exact ⟨entry.callback ++ '(' :: w, .call hmem hgap hfirst, keepParen hfs
          (fun c hc => Or.inl (Text.isIdentifierPart_of_mem hidentifier c hc)) hsecond⟩
      · -- The marker is kept by the first one.
        have hfs' : entry ∈ fs := ((hentries entry).mp hentry).resolve_left hmem
        have hnone : ¬ (v.withEntries es).IsCalled (v.fullMarker entry ++ (gap ++ '(' :: t)) := by
          intro hcalled
          obtain ⟨entry', hentry', gap', r, hgap', htext⟩ := hcalled
          have hsame : entry = entry' := hv.eq_of_calls hentry
            ((hentries entry').mpr (Or.inl hentry')) hgap hgap' htext
          exact hmem (hsame ▸ hentry')
        have hblank : ∀ c ∈ v.fullMarker entry, ¬ Text.isBlank c :=
          fun c hc => (hv.unbroken entry hentry c hc).1
        exact ⟨v.fullMarker entry ++ (gap ++ '(' :: w),
          keepCall hes (hv.nonempty entry hentry) hblank hgap hnone hfirst,
          .call hfs' hgap hsecond⟩

end Expands

section OneByOne

variable {v : Vocabulary} {entry : LifecycleEntry} {entries : List LifecycleEntry}

theorem expandLifecycle_nil (hv : v.IsUnambiguous) (script : Text) :
    expandLifecycle (v.withEntries []) script = script := by
  have hnothing : (v.withEntries []).IsUnambiguous := hv.withEntries (List.forall_mem_nil _)
  have hexpands (boundary : Bool) : Expands (v.withEntries []) boundary script script := by
    induction script generalizing boundary with
    | nil => exact .nil
    | cons c t ih =>
        refine .keep (fun _ hcalled => ?_) (ih _)
        obtain ⟨entry, hentry, -⟩ := hcalled
        cases hentry
  exact ((expands_iff hnothing).mp (hexpands true)).symm

/-- Entries may be expanded in two steps: the first of them, then the others. -/
theorem expandLifecycle_cons (hv : v.IsUnambiguous)
    (hentries : ∀ e ∈ entry :: entries, e ∈ v.lifecycle) (script : Text) :
    expandLifecycle (v.withEntries (entry :: entries)) script =
      expandLifecycle (v.withEntries entries) (expandLifecycle (v.withEntries [entry]) script) := by
  have hall := hv.withEntries hentries
  have hone : (v.withEntries [entry]).IsUnambiguous :=
    hv.withEntries fun e he => hentries e (by simp [List.mem_singleton.mp he])
  have hrest : (v.withEntries entries).IsUnambiguous :=
    hv.withEntries fun e he => hentries e (List.mem_cons_of_mem entry he)
  have hsplit : ∀ e, e ∈ (v.withEntries (entry :: entries)).lifecycle ↔
      e ∈ [entry] ∨ e ∈ entries := by
    intro e
    rw [List.mem_singleton]
    exact List.mem_cons
  have hexpands : Expands (v.withEntries (entry :: entries)) true script _ :=
    (expands_iff hall).mpr rfl
  obtain ⟨w, hfirst, hsecond⟩ := hexpands.exists_between hall hsplit
  rw [(expands_iff hone).mp hfirst] at hsecond
  exact (expands_iff hrest).mp hsecond

/-- Expanding entries one by one is expanding them in one sweep. -/
theorem foldl_expandLifecycle (hv : v.IsUnambiguous) (hentries : ∀ e ∈ entries, e ∈ v.lifecycle)
    (script : Text) :
    entries.foldl (fun script entry => expandLifecycle (v.withEntries [entry]) script) script =
      expandLifecycle (v.withEntries entries) script := by
  induction entries generalizing script with
  | nil => exact (expandLifecycle_nil hv script).symm
  | cons entry entries ih =>
      rw [List.foldl_cons, ih (fun e he => hentries e (List.mem_cons_of_mem entry he)),
        expandLifecycle_cons hv hentries]

/-- A vocabulary may be expanded entry by entry, in any order and with repetitions: it comes out as
with one sweep for all of its markers. -/
theorem expandLifecycle_one_by_one (hv : v.IsUnambiguous)
    (hentries : ∀ entry, entry ∈ entries ↔ entry ∈ v.lifecycle) (script : Text) :
    entries.foldl (fun script entry => expandLifecycle (v.withEntries [entry]) script) script =
      expandLifecycle v script := by
  rw [foldl_expandLifecycle hv fun e he => (hentries e).mp he]
  have hall := hv.withEntries fun e he => (hentries e).mp he
  have hexpands := ((expands_iff hv).mpr rfl : Expands v true script (expandLifecycle v script))
  exact ((expands_iff hall).mp (hexpands.congr hentries)).symm

end OneByOne

/-- A vocabulary with two lifecycle markers, one of which begins with the other. -/
def overlappingMarkers : Vocabulary :=
  Vocabulary.standard.withEntries
    [⟨"on".toList, "onCallback".toList⟩, ⟨"on::on".toList, "bothCallback".toList⟩]

/-- Markers that overlap are expanded one by one, in the other order and with a repetition. -/
theorem overlappingMarkers_one_by_one :
    overlappingMarkers.IsUnambiguous ∧
    [LifecycleEntry.mk "on::on".toList "bothCallback".toList, ⟨"on".toList, "onCallback".toList⟩,
        ⟨"on::on".toList, "bothCallback".toList⟩].foldl
      (fun script entry => expandLifecycle (overlappingMarkers.withEntries [entry]) script)
      "::on::on (a) ::on\n(b) x::on(c)".toList =
    "bothCallback(a) onCallback(b) x::on(c)".toList := by
  have hunbroken : ∀ entry ∈ overlappingMarkers.lifecycle,
      (overlappingMarkers.fullMarker entry).all fun c => !Text.isBlank c && c != '(' := by
    decide
  have hfirst : ∀ entry ∈ overlappingMarkers.lifecycle,
      (overlappingMarkers.fullMarker entry).head?.all fun c => !Text.isIdentifierPart c := by
    decide
  have hunambiguous : overlappingMarkers.IsUnambiguous := by
    refine ⟨by decide, by decide, fun entry hentry c hc => ?_, fun entry hentry c hc => ?_,
      by decide⟩
    · simpa using List.all_eq_true.mp (hunbroken entry hentry) c hc
    · have hpart := hfirst entry hentry
      rw [Option.mem_def.mp hc] at hpart
      simpa using hpart
  refine ⟨hunambiguous, (expandLifecycle_one_by_one hunambiguous (fun entry => ?_) _).trans ?_⟩
  · simp only [overlappingMarkers, Vocabulary.withEntries, List.mem_cons, List.not_mem_nil,
      or_false]
    exact ⟨fun h => h.elim Or.inr id, Or.inr⟩
  · rfl

end ElementScript
