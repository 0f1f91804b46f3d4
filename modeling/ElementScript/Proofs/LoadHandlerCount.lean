import ElementScript.Proofs.Cut
import ElementScript.Proofs.Scan.CallSite

/-!
# Counting the load handlers left in place

The load handler pass counts the calls of its marker in the text behind the one that it cuts out.
What matters to the author is the script that is left, in which that text follows on what stood in
front of the cut. A search for calls from the start of that script passes over the text in front
(`uncalled_joined`), and goes through the text behind as the count does
(`LoadHandler.length_allFrom`): the count is exact unless the marker itself stands in front of the
cut (`liftLoadHandler_ignored`).
-/

namespace ElementScript

namespace CallSite

variable {script marker : Text} {offset : Nat} {site : CallSite}

/-- A call that is found has its parenthesis inside the script, behind the place of the search. -/
theorem paren_of_find? (h : find? script offset marker false = some site) :
    offset < site.paren ∧ site.paren < Text.byteSize script := by
  obtain ⟨-, hcall, hle, -⟩ := ((find?_leftmost script marker offset false).1 site).mp h
  obtain ⟨hmarker, before, gap, after, rfl, -, hstart, hparen, -⟩ := hcall
  have hpos := Text.byteSize_pos hmarker
  have hone : '('.utf8Size = 1 := by decide
  simp only [Text.byteSize_append, Text.byteSize_cons] at hparen ⊢
  omega

/-- All calls at or behind a place, each looked for from the parenthesis of the one before. -/
def allFrom (script marker : Text) (offset : Nat) : List CallSite :=
  match hfind : find? script offset marker false with
  | none => []
  | some site =>
    have := paren_of_find? hfind
    site :: allFrom script marker site.paren
termination_by Text.byteSize script - offset

theorem allFrom_of_find?_eq_none (h : find? script offset marker false = none) :
    allFrom script marker offset = [] := by
  rw [allFrom]
  split
  · rfl
  · rename_i site hsite
    rw [h] at hsite
    cases hsite

theorem allFrom_of_find?_eq_some (h : find? script offset marker false = some site) :
    allFrom script marker offset = site :: allFrom script marker site.paren := by
  rw [allFrom]
  split
  · rename_i hnone
    rw [h] at hnone
    cases hnone
  · rename_i other hother
    rw [h] at hother
    cases hother
    rfl

/-- All calls are those that come of the first search. -/
theorem allFrom_congr {offset' : Nat}
    (h : find? script offset marker false = find? script offset' marker false) :
    allFrom script marker offset = allFrom script marker offset' := by
  cases hfind : find? script offset' marker false with
  | none => rw [allFrom_of_find?_eq_none (h.trans hfind), allFrom_of_find?_eq_none hfind]
  | some site => rw [allFrom_of_find?_eq_some (h.trans hfind), allFrom_of_find?_eq_some hfind]

end CallSite

/-! ### Counting calls -/

namespace LoadHandler

variable {marker : Text}

theorem headAt?_eq_some {t : Text} {x : Found Unit} (h : headAt? marker t = some x) :
    ∃ call, callAt? marker t = some call ∧ x = ⟨call.head, call.head, ()⟩ := by
  obtain ⟨call, hcall, rfl⟩ := Option.map_eq_some_iff.mp h
  exact ⟨call, hcall, rfl⟩

theorem findsAtStart_headAt? (marker : Text) : FindsAtStart fun t => .ok (headAt? marker t) := by
  intro t x h
  obtain ⟨call, hcall, rfl⟩ := headAt?_eq_some (Except.ok.inj h)
  obtain ⟨-, ht, -, -⟩ := callAt?_eq_some_iff.mp hcall
  exact ⟨head_ne_nil_of_callAt? hcall, call.args, ht.symm⟩

/-- A sweep counts the calls that searches find one after the other, whatever stands in front. -/
theorem length_allFrom {boundary : Bool} {before t : Text}
    {r : Except Fault (List (Step Unit))}
    (h : Swept (fun u => .ok (headAt? marker u)) false boundary t r)
    (hboundary : boundary = endsAtBoundary before) {steps : List (Step Unit)}
    (hr : r = .ok steps) :
    (CallSite.allFrom (before ++ t) marker (Text.byteSize before)).length =
      (Step.values steps).length := by
  induction h generalizing before steps with
  | nil =>
      cases hr
      have hnone : CallSite.find? (before ++ []) (Text.byteSize before) marker false = none := by
        rw [CallSite.find?_append]
        rfl
      rw [CallSite.allFrom_of_find?_eq_none hnone]
      rfl
  | @keep _ c t _ hnone rest ih =>
      obtain ⟨more, hmore, rfl⟩ := resume_eq_ok_iff.mp hr
      have huncalled : Uncalled marker before [c] t := by
        refine uncalled_singleton.mpr fun hb => ?_
        exact Option.map_eq_none_iff.mp (Except.ok.inj (hnone (hboundary.trans hb)))
      have hall := ih (endsAtBoundary_concat before c).symm hmore
      rw [List.append_assoc] at hall
      rw [← List.singleton_append, CallSite.allFrom_congr (CallSite.find?_uncalled huncalled), hall]
      rfl
  | @found x t _ hold hfound rest ih =>
      obtain ⟨more, hmore, rfl⟩ := resume_eq_ok_iff.mp hr
      obtain ⟨call, hcall, rfl⟩ := headAt?_eq_some (Except.ok.inj hfound)
      have hfind : CallSite.find? (before ++ (call.head ++ t)) (Text.byteSize before) marker false =
          some ⟨Text.byteSize before, Text.byteSize (before ++ call.head)⟩ :=
        CallSite.find?_of_callAt? hboundary.symm hcall
      -- Behind the head of a call, its last character tells whether there is a boundary.
      have hstop : stopBoundary false true call.head = endsAtBoundary (before ++ call.head) := by
        rw [endsAtBoundary_append hold, stopBoundary, endsAtBoundary,
          List.getLast?_eq_some_getLast hold]
        rfl
      have hall := ih hstop hmore
      rw [List.append_assoc] at hall
      rw [CallSite.allFrom_of_find?_eq_some hfind, List.length_cons, hall]
      rfl
  | fault hfault => cases hfault

/-- The count of the calls in a text is that of the calls found in it behind any text that ends at a
boundary. -/
theorem countCalls_eq {before : Text} (hbefore : endsAtBoundary before) (t : Text) :
    countCalls marker t =
      (CallSite.allFrom (before ++ t) marker (Text.byteSize before)).length := by
  have hswept := swept_sweepOn (findsAtStart_headAt? marker) false true t
  exact (length_allFrom hswept hbefore.symm (sweep_ok (headAt? marker) false t)).symm

end LoadHandler

/-! ### The joined text -/

/-- The marker stands at the end of the text, with nothing but blanks behind it. -/
def EndsInMarker (marker before : Text) : Prop :=
  ∃ u gap, before = u ++ (marker ++ gap) ∧ gap ≠ [] ∧ ∀ c ∈ gap, Text.isBlank c

/-- What is uncalled in front of one text is so in front of any other, if it does not end in the
marker. -/
theorem uncalled_joined {marker before rest after : Text}
    (hmarker : ∀ c ∈ marker, ¬ Text.isBlank c) (huncalled : Uncalled marker [] before rest)
    (hbefore : endsAtBoundary before) (hend : ¬ EndsInMarker marker before) :
    Uncalled marker [] before after := by
  intro u w hsplit hw hboundary
  have hlast : w.getLast hw ∉ marker := by
    rw [hsplit, endsAtBoundary_append hw, endsAtBoundary,
      List.getLast?_eq_some_getLast hw] at hbefore
    exact fun hmem => hmarker _ hmem hbefore
  cases hcall : callAt? marker (w ++ after) with
  | none => rfl
  | some call =>
      exfalso
      rcases callAt?_append_cases hcall with ⟨args, hargs⟩ | ⟨r, hcover, -⟩
      · -- The call ends in front of the seam, so it was one in front of the other text as well.
        have hnone := huncalled u w hsplit hw hboundary
        rw [callAt?_append_text hargs rest] at hnone
        cases hnone
      · obtain ⟨-, -, ⟨gap, hhead, hgap⟩, -⟩ := callAt?_eq_some_iff.mp hcall
        rcases Text.append_eq_append_cases (hhead.symm.trans hcover) with
          ⟨gap', hw', rfl⟩ | ⟨v, -, hmarker', -⟩
        · refine hend ⟨u, gap', by rw [hsplit, hw'], fun hnil => ?_,
            fun c hc => hgap c (List.mem_append_left r hc)⟩
          rw [hnil, List.append_nil] at hw'
          exact hlast (hw' ▸ List.getLast_mem hw)
        · exact hlast (hmarker' ▸ List.mem_append_left v (List.getLast_mem hw))

/-- Where a load handler is lifted, the first call of its marker is cut out of the script and
nothing else. The number of later calls is that of the calls found in the script that is left, one
after the other from its start, unless the marker itself stands in front of the cut. -/
theorem liftLoadHandler_ignored {v : Vocabulary} {script body : Text} {x : LiftedLoadHandler}
    (hmarker : ∀ c ∈ v.loadHandlerMarker, ¬ Text.isBlank c)
    (hx : liftLoadHandler v script = .ok x) (hbody : x.handler? = some body) :
    ∃ (c : Cut) (after : Text), script = c.gap ++ (c.invocation ++ after) ∧
      CallSite.find? script 0 v.loadHandlerMarker false =
        some ⟨Text.byteSize c.gap, Text.byteSize (c.gap ++ c.call.head)⟩ ∧
      callAt? v.loadHandlerMarker (c.invocation ++ after) = some c.call ∧
      handler? c.call.args = .ok (some c.handler) ∧ body = Text.trim c.handler.body ∧
      x.script = c.gap ++ after ∧
      (¬ EndsInMarker v.loadHandlerMarker c.gap →
        x.ignored = (CallSite.allFrom x.script v.loadHandlerMarker 0).length) := by
  rcases loadHandlerCut_of_liftLoadHandler hx with rfl | ⟨c, after, hcut⟩
  · cases hbody
  · obtain ⟨hthrough, -, rfl⟩ := hcut
    cases hbody
    cases hthrough with
    | cut huncalled hgap hcall hhandler behind =>
        cases behind
        have hleft : LiftedLoadHandler.script ⟨Cut.edits [c] ++ Edit.keepAll after,
            some (Text.trim c.handler.body), LoadHandler.countCalls v.loadHandlerMarker after⟩ =
              c.gap ++ after := by
          simp [LiftedLoadHandler.script, Edit.after]
        refine ⟨c, after, rfl, ?_, hcall, hhandler, rfl, hleft, fun hend => ?_⟩
        · have hfind := CallSite.find?_uncalled huncalled
          rw [List.nil_append, List.nil_append, CallSite.find?_of_callAt? hgap hcall] at hfind
          exact hfind
        · have hjoined : Uncalled v.loadHandlerMarker [] c.gap after :=
            uncalled_joined hmarker huncalled hgap hend
          rw [hleft, LoadHandler.countCalls_eq hgap]
          exact congrArg List.length (CallSite.allFrom_congr (CallSite.find?_uncalled hjoined)).symm

/-- The text behind the cut begins with a call, for which the cut makes room at a boundary. -/
theorem gluedLoadHandler_ignored :
    let script :=
      "a ::initialized(() => \x7b b(); \x7d);::initialized(x) ::initialized(y)".toList
    let marker := Vocabulary.standard.loadHandlerMarker
    ∃ x, (∀ c ∈ marker, ¬ Text.isBlank c) ∧ liftLoadHandler .standard script = .ok x ∧
      x.handler? = some "b();".toList ∧
      x.script = "a ::initialized(x) ::initialized(y)".toList ∧ ¬ EndsInMarker marker "a ".toList ∧
      x.ignored = 2 ∧ (CallSite.allFrom x.script marker 0).length = 2 := by
  intro script marker
  have hmarker : ∀ c ∈ marker, ¬ Text.isBlank c := not_isBlank_of_all (by decide)
  have hend : ¬ EndsInMarker marker "a ".toList := by
    rintro ⟨u, gap, hgap, -⟩
    have hlength := congrArg List.length hgap
    rw [List.length_append, List.length_append] at hlength
    have hshort : "a ".toList.length = 2 := by decide
    have hlong : marker.length = 13 := by decide
    omega
  obtain ⟨x, hx, hbody, hleft, hignored⟩ : ∃ x, liftLoadHandler .standard script = .ok x ∧
      x.handler? = some "b();".toList ∧
      x.script = "a ::initialized(x) ::initialized(y)".toList ∧ x.ignored = 2 :=
    ⟨_, rfl, by decide, by decide, by decide⟩
  obtain ⟨c, after, hscript, hfind, -, -, -, -, hcount⟩ := liftLoadHandler_ignored hmarker hx hbody
  have hgap : c.gap = "a ".toList := by
    have hsite : CallSite.find? script 0 marker false = some ⟨2, 15⟩ := by decide
    rw [hsite, Option.some.injEq, CallSite.mk.injEq] at hfind
    have hsplit : script = "a ".toList ++ script.drop 2 := by decide
    exact (Text.append_inj_of_byteSize (hscript.symm.trans hsplit) hfind.1.symm).1
  have hall := hcount (by rw [hgap]; exact hend)
  exact ⟨x, hmarker, hx, hbody, hleft, hend, hignored, by rw [← hall, hignored]⟩

end ElementScript
