import ElementScript.Proofs.Listener.Dispatcher
import ElementScript.Proofs.Scan.CallSite

/-!
# Calls in the dispatcher

The dispatcher is made of fixed pieces of code, of attribute names in quotes, and of the bodies of
the listeners. Neither a fixed piece nor a quoted name calls a marker that is foreign to them
(`Dispatcher.IsForeign`), and no call begins in a body and ends behind it, since a body stands alone
on its lines. So whatever calls such a marker in the dispatcher is spelled out in a body
(`calledIn_dispatcherMembers`), and no call that begins in front of the dispatcher needs it
(`LiftedListeners.call_cases`).
-/

namespace ElementScript

/-! ### Calls in slots -/

/-- Each call of the marker that begins in `text`, which stands between `before` and `after`, is
spelled out in one of the slots, up to its parenthesis. -/
def CalledIn (slots : List Text) (marker before text after : Text) : Prop :=
  ∀ u w call, text = u ++ w → w ≠ [] → endsAtBoundary (before ++ u) →
    callAt? marker (w ++ after) = some call → ∃ slot ∈ slots, call.head ++ ['('] <:+: slot

section Slots

variable {slots : List Text} {marker before p q slot after : Text}

theorem Uncalled.calledIn (h : Uncalled marker before p after) :
    CalledIn slots marker before p after := by
  intro u w call hp hw hboundary hcall
  rw [h u w hp hw hboundary] at hcall
  cases hcall

theorem CalledIn.append (hp : CalledIn slots marker before p (q ++ after))
    (hq : CalledIn slots marker (before ++ p) q after) :
    CalledIn slots marker before (p ++ q) after := by
  intro u w call hpq hw hboundary hcall
  rcases Text.append_eq_append_cases hpq with ⟨u', rfl, hq'⟩ | ⟨w', hw', rfl, rfl⟩
  · rw [← List.append_assoc] at hboundary
    exact hq u' w call hq' hw hboundary hcall
  · rw [List.append_assoc] at hcall
    exact hp u w' call rfl hw' hboundary hcall

/-- A call that begins in a slot does so up to its parenthesis, if the text behind the slot begins
with a blank and does not open a call. -/
theorem calledIn_slot (hslot : slot ∈ slots) (hmarker : ∀ c ∈ marker, ¬ Text.isBlank c)
    (hblank : ∀ c t, after = c :: t → Text.isBlank c)
    (hopens : ¬ opensCall (Text.trimStart after)) : CalledIn slots marker before slot after := by
  intro u w call hu hw hboundary hcall
  obtain ⟨args, hargs⟩ := callAt?_of_append_blank hmarker hblank hopens hcall
  obtain ⟨-, htext, -, t, rfl⟩ := callAt?_eq_some_iff.mp hargs
  refine ⟨slot, hslot, u, t, ?_⟩
  rw [hu, htext]
  simp

end Slots

/-! ### Fixed pieces -/

/-- Whatever follows the text, at none of its boundaries stands the marker; `boundary` says whether
its start is one. -/
def standsApart (marker : Text) (boundary : Bool) : Text → Bool
  | [] => true
  | c :: t =>
    (!boundary || !marker.isPrefixOf (c :: t) && !(c :: t).isPrefixOf marker) &&
      standsApart marker (Text.isBlank c) t

theorem uncalled_of_standsApart {marker before t : Text} {boundary : Bool}
    (hbefore : endsAtBoundary before → boundary) (h : standsApart marker boundary t)
    (after : Text) : Uncalled marker before t after := by
  induction t generalizing before boundary with
  | nil => exact uncalled_nil
  | cons c t ih =>
      rw [standsApart, Bool.and_eq_true] at h
      obtain ⟨hhere, htail⟩ := h
      refine uncalled_cons.mpr ⟨fun hb => callAt?_eq_none fun hmarker => ?_, ih ?_ htail⟩
      · rw [hbefore hb] at hhere
        simp only [Bool.not_true, Bool.false_or, Bool.and_eq_true, Bool.not_eq_true'] at hhere
        -- Of two texts that a third begins with, one begins with the other.
        rcases List.prefix_or_prefix_of_prefix hmarker (List.prefix_append (c :: t) after) with
          hp | hp
        · exact absurd (List.isPrefixOf_iff_prefix.mpr hp) (by simp [hhere.1])
        · exact absurd (List.isPrefixOf_iff_prefix.mpr hp) (by simp [hhere.2])
      · rw [endsAtBoundary_concat]
        exact id

namespace Dispatcher

/-- The fixed pieces of a dispatcher. -/
def pieces : List Text := [
  '\n' :: (signature .standard ++ indent ++ "switch(attr) \x7b\n".toList),
  indent ++ indent ++ "case ".toList,
  ":\n".toList,
  indent ++ indent ++ indent,
  '\n' :: (indent ++ indent ++ indent ++ "break;\n".toList),
  indent ++ indent ++ indent ++ "break;\n".toList,
  indent ++ "\x7d\n\x7d".toList ++ '\n' :: "static get observedAttributes() \x7b return [".toList,
  ", ".toList,
  "]; \x7d\n".toList]

/-- The marker is one word, and nothing in the fixed pieces of a dispatcher or around the names in
it can be taken for it. -/
structure IsForeign (marker : Text) : Prop where
  word : ∀ c ∈ marker, ¬ Text.isBlank c
  quote : marker.head? ≠ some '\"'
  apart : ∀ p ∈ pieces, standsApart marker true p

theorem isForeign_listenerToken : IsForeign Vocabulary.standard.listenerToken :=
  ⟨not_isBlank_of_all (by decide), by decide, List.all_eq_true.mp (by decide)⟩

theorem isForeign_loadHandlerMarker : IsForeign Vocabulary.standard.loadHandlerMarker :=
  ⟨not_isBlank_of_all (by decide), by decide, List.all_eq_true.mp (by decide)⟩

/-! ### All of the dispatcher -/

section Calls

variable {slots : List Text} {marker before after : Text}

theorem IsForeign.uncalled_piece {p : Text} (hm : IsForeign marker) (hp : p ∈ pieces) :
    Uncalled marker before p after :=
  uncalled_of_standsApart (fun _ => rfl) (hm.apart p hp) after

/-- A name in quotes does not call the marker. -/
theorem IsForeign.uncalled_quoted {name : Text} (hm : IsForeign marker)
    (hname : ∀ c ∈ name, ¬ Text.isBlank c) : Uncalled marker before (quoted name) after := by
  have hquote : ¬ Text.isBlank '\"' := by decide
  refine uncalled_cons.mpr ⟨fun _ => ?_, uncalled_of_word ?_ ?_⟩
  · cases hmarker : marker with
    | nil => rfl
    | cons c m =>
        refine callAt?_eq_none fun hprefix => ?_
        obtain ⟨rfl, -⟩ := List.cons_prefix_cons.mp hprefix
        exact hm.quote (by rw [hmarker]; rfl)
  · rwa [endsAtBoundary_concat]
  · intro c hc
    rcases List.mem_append.mp hc with hc | hc
    · exact hname c hc
    · rwa [List.mem_singleton.mp hc]

theorem IsForeign.uncalled_names {names : List Text} (hm : IsForeign marker)
    (hnames : ∀ name ∈ names, ∀ c ∈ name, ¬ Text.isBlank c) :
    Uncalled marker before (", ".toList.intercalate (names.map quoted)) after := by
  induction names generalizing before with
  | nil => exact uncalled_nil
  | cons name names ih =>
      obtain ⟨hname, htail⟩ := List.forall_mem_cons.mp hnames
      cases names with
      | nil => simpa [List.intercalate] using hm.uncalled_quoted hname
      | cons next names =>
          have hcons : ", ".toList.intercalate ((name :: next :: names).map quoted) =
              quoted name ++ (", ".toList ++
                ", ".toList.intercalate ((next :: names).map quoted)) := by
            simp [List.intercalate]
          rw [hcons]
          refine uncalled_append.mpr ⟨hm.uncalled_quoted hname, ?_⟩
          exact uncalled_append.mpr ⟨hm.uncalled_piece (by simp [pieces]), ih htail⟩

/-- Whatever calls the marker in the case of a listener is spelled out in the body. -/
theorem IsForeign.calledIn_caseLines {l : Listener} (hm : IsForeign marker)
    (hobserved : ∀ c ∈ l.observed, ¬ Text.isBlank c) (hbody : l.body ∈ slots) :
    CalledIn slots marker before (caseLines l) after := by
  have hpiece {p before after : Text} (hp : p ∈ pieces) : CalledIn slots marker before p after :=
    (hm.uncalled_piece hp).calledIn
  have hcase : indent ++ indent ++ "case ".toList ∈ pieces := by simp [pieces]
  have hcolon : ":\n".toList ∈ pieces := by simp [pieces]
  by_cases hempty : l.body.isEmpty
  · have hlines : caseLines l = (indent ++ indent ++ "case ".toList) ++ (quoted l.observed ++
        (":\n".toList ++ (indent ++ indent ++ indent ++ "break;\n".toList))) := by
      simp [caseLines, hempty]
    rw [hlines]
    refine (hpiece hcase).append (.append (hm.uncalled_quoted hobserved).calledIn ?_)
    exact (hpiece hcolon).append (hpiece (by simp [pieces]))
  · have hlines : caseLines l = (indent ++ indent ++ "case ".toList) ++ (quoted l.observed ++
        (":\n".toList ++ ((indent ++ indent ++ indent) ++ (l.body ++
          '\n' :: (indent ++ indent ++ indent ++ "break;\n".toList))))) := by
      simp [caseLines, hempty]
    rw [hlines]
    refine (hpiece hcase).append (.append (hm.uncalled_quoted hobserved).calledIn ?_)
    refine (hpiece hcolon).append (.append (hpiece (by simp [pieces])) ?_)
    refine .append (calledIn_slot hbody hm.word ?_ ?_) (hpiece (by simp [pieces]))
    · intro c t hc
      cases hc
      decide
    · have hbreak : ¬ Text.isBlank 'b' := by decide
      have hindent : ∀ c ∈ '\n' :: (indent ++ indent ++ indent), Text.isBlank c :=
        List.all_eq_true.mp (by decide)
      have htext : '\n' :: (indent ++ indent ++ indent ++ "break;\n".toList) ++ after =
          '\n' :: (indent ++ indent ++ indent) ++ 'b' :: ("reak;\n".toList ++ after) := by
        simp
      rw [htext, Text.trimStart_append_cons hindent hbreak]
      exact Bool.false_ne_true

theorem IsForeign.calledIn_cases {listeners : List Listener} (hm : IsForeign marker)
    (hobserved : ∀ l ∈ listeners, ∀ c ∈ l.observed, ¬ Text.isBlank c)
    (hbodies : ∀ l ∈ listeners, l.body ∈ slots) :
    CalledIn slots marker before (listeners.flatMap caseLines) after := by
  induction listeners generalizing before with
  | nil => exact uncalled_nil.calledIn
  | cons l listeners ih =>
      obtain ⟨hhead, htail⟩ := List.forall_mem_cons.mp hobserved
      obtain ⟨hbody, hbodies⟩ := List.forall_mem_cons.mp hbodies
      exact (hm.calledIn_caseLines hhead hbody).append (ih htail hbodies)

end Calls

end Dispatcher

/-- Whatever calls a foreign marker in the dispatcher is spelled out in the body of a listener. -/
theorem calledIn_dispatcherMembers {marker before : Text} {listeners : List Listener}
    (hm : Dispatcher.IsForeign marker) (hcontained : ∀ l ∈ listeners, l.IsContained) :
    CalledIn (listeners.map Listener.body) marker before
      (dispatcherMembers .standard listeners) [] := by
  have hobserved : ∀ l ∈ listeners, ∀ c ∈ l.observed, ¬ Text.isBlank c := fun l hl c hc =>
    Listener.not_isBlank_of_isAttributePart ((hcontained l hl).observed c hc)
  have hnames : ∀ name ∈ Listener.observedAttributes listeners, ∀ c ∈ name, ¬ Text.isBlank c :=
    List.forall_mem_map.mpr hobserved
  have hpiece {p before after : Text} (hp : p ∈ Dispatcher.pieces) :
      CalledIn (listeners.map Listener.body) marker before p after :=
    (hm.uncalled_piece hp).calledIn
  have hmembers : dispatcherMembers .standard listeners =
      ('\n' :: (Dispatcher.signature .standard ++ Dispatcher.indent ++
        "switch(attr) \x7b\n".toList)) ++
      (listeners.flatMap Dispatcher.caseLines ++
        ((Dispatcher.indent ++ "\x7d\n\x7d".toList ++
          '\n' :: "static get observedAttributes() \x7b return [".toList) ++
        (", ".toList.intercalate ((Listener.observedAttributes listeners).map Dispatcher.quoted) ++
          "]; \x7d\n".toList))) := by
    unfold dispatcherMembers Dispatcher.method Dispatcher.accessor
    simp only [List.append_assoc, List.cons_append]
  rw [hmembers]
  refine (hpiece (by simp [Dispatcher.pieces])).append (.append ?_ ?_)
  · exact hm.calledIn_cases hobserved fun l hl => List.mem_map_of_mem hl
  · refine (hpiece (by simp [Dispatcher.pieces])).append ?_
    exact (hm.uncalled_names hnames).calledIn.append (hpiece (by simp [Dispatcher.pieces]))

/-- Behind a script with listeners or without, nothing continues a call of the script. -/
theorem dispatcherEdits_separate (listeners : List Listener) :
    (∀ c t, Edit.output (Pass.dispatcherEdits .standard listeners) = c :: t → Text.isBlank c) ∧
      ¬ opensCall (Text.trimStart (Edit.output (Pass.dispatcherEdits .standard listeners))) := by
  have hblank : ∀ c ∈ ['\n'], Text.isBlank c := List.all_eq_true.mp (by decide)
  have hletter : ¬ Text.isBlank 'a' := by decide
  unfold Pass.dispatcherEdits
  split
  · refine ⟨?_, Bool.false_ne_true⟩
    intro c t h
    cases h
  · rw [Edit.output_cons, Edit.output_nil, List.append_nil]
    refine ⟨?_, ?_⟩
    · intro c t h
      cases h
      decide
    · change ¬ opensCall (Text.trimStart (['\n'] ++ 'a' :: _))
      rw [Text.trimStart_append_cons hblank hletter]
      exact Bool.false_ne_true

/-- Whatever calls a foreign marker behind the script is spelled out in the body of a listener. -/
theorem calledIn_dispatcherEdits {marker : Text} {listeners : List Listener} (before : Text)
    (hm : Dispatcher.IsForeign marker) (hcontained : ∀ l ∈ listeners, l.IsContained) :
    CalledIn (listeners.map Listener.body) marker before
      (Edit.output (Pass.dispatcherEdits .standard listeners)) [] := by
  unfold Pass.dispatcherEdits
  split
  · exact uncalled_nil.calledIn
  · rw [Edit.output_cons, Edit.output_nil, List.append_nil]
    exact calledIn_dispatcherMembers hm hcontained

/-- Where listeners were lifted, a call of a foreign marker begins in the dispatcher and is spelled
out in the body of a listener, or else it is a call of the text in front of the dispatcher. -/
theorem LiftedListeners.call_cases {marker t before w : Text} {x : LiftedListeners} {call : Call}
    (hm : Dispatcher.IsForeign marker) (hx : liftListeners .standard t = .ok x)
    (htext : x.script ++ Edit.output (Pass.dispatcherEdits .standard x.listeners) = before ++ w)
    (hboundary : endsAtBoundary before) (hcall : callAt? marker w = some call) :
    (∃ u, before = x.script ++ u ∧
      Edit.output (Pass.dispatcherEdits .standard x.listeners) = u ++ w ∧
      ∃ l ∈ x.listeners, call.head ++ ['('] <:+: l.body) ∨
    ∃ w' args, x.script = before ++ w' ∧ callAt? marker w' = some ⟨call.head, args⟩ := by
  have hv : Vocabulary.standard.flaw? = none := by decide
  rcases Text.append_eq_append_cases htext with ⟨u, rfl, hbehind⟩ | ⟨w', -, hkept, rfl⟩
  · have hcalled := calledIn_dispatcherEdits x.script hm
      fun l hl => Listener.isContained_of_mem hv hx hl
    have hne := ne_nil_of_callAt? hcall
    rw [← List.append_nil w] at hcall
    obtain ⟨body, hbody, hinfix⟩ := hcalled u w call hbehind hne hboundary hcall
    obtain ⟨l, hl, rfl⟩ := List.mem_map.mp hbody
    exact Or.inl ⟨u, rfl, hbehind, l, hl, hinfix⟩
  · obtain ⟨hblank, hopens⟩ := dispatcherEdits_separate x.listeners
    obtain ⟨args, hargs⟩ := callAt?_of_append_blank hm.word hblank hopens hcall
    exact Or.inr ⟨w', args, hkept, hargs⟩

end ElementScript
