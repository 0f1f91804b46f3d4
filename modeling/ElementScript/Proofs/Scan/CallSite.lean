import ElementScript.Proofs.Scan.Leftmost

/-!
# Sites of calls

`CallSite.IsCall` says of a script, without any search, that a marker is called at a site. The calls
at or behind a place are cuts of the text from there on (`CallSite.isCall_append_iff`), and a search
passes over uncalled text only. So `CallSite.find?` answers the first call, and none exactly where
there is none (`CallSite.find?_leftmost`), also if occurrences of the marker overlap.
-/

namespace ElementScript

/-- A place that counts as a boundary is one in another context, in which the places behind it are
boundaries as before. -/
theorem exists_context (boundary : Bool) (before : Text) :
    ∃ context, endsAtBoundary context = (boundary || endsAtBoundary before) ∧
      ∀ u, endsAtBoundary (context ++ u) ↔ endsAtBoundary (before ++ u) ∨ boundary ∧ u = [] := by
  cases boundary with
  | false => exact ⟨before, by simp, by simp⟩
  | true =>
      refine ⟨[], rfl, fun u => ?_⟩
      by_cases hu : u = []
      · subst hu
        simp [endsAtBoundary]
      · rw [List.nil_append, endsAtBoundary_append hu]
        simp [hu]

namespace CallSite

/-! ### Calls of a script -/

/-- The marker is called at the site: it stands there, then blanks only, then the parenthesis; and
in front of it the script starts, or a blank stands. With `boundary`, what stands in front of the
place `offset` does not matter. -/
def IsCall (script marker : Text) (offset : Nat) (boundary : Bool) (site : CallSite) : Prop :=
  marker ≠ [] ∧ ∃ before gap after,
    script = before ++ (marker ++ (gap ++ '(' :: after)) ∧ (∀ c ∈ gap, Text.isBlank c) ∧
      site.start = Text.byteSize before ∧ site.paren = Text.byteSize (before ++ (marker ++ gap)) ∧
      ((before = [] ∨ ∃ u c, before = u ++ [c] ∧ Text.isBlank c) ∨
        boundary ∧ site.start = offset)

section Calls

variable {script marker before rest : Text} {offset : Nat} {boundary : Bool} {site site' : CallSite}

/-- Calls are cuts of the script in front of what `callAt?` reads. -/
theorem isCall_iff :
    IsCall script marker offset boundary site ↔
      ∃ before call, script = before ++ (call.head ++ call.args) ∧
        callAt? marker (call.head ++ call.args) = some call ∧
        site = ⟨Text.byteSize before, Text.byteSize (before ++ call.head)⟩ ∧
        (endsAtBoundary before ∨ boundary ∧ site.start = offset) := by
  constructor
  · intro h
    obtain ⟨hmarker, before, gap, after, rfl, hgap, hstart, hparen, hboundary⟩ := h
    refine ⟨before, ⟨marker ++ gap, '(' :: after⟩, by simp, ?_, ?_, ?_⟩
    · exact callAt?_eq_some_iff.mpr ⟨hmarker, rfl, ⟨gap, rfl, hgap⟩, after, rfl⟩
    · rw [← hstart, ← hparen]
    · exact hboundary.imp_left endsAtBoundary_iff.mpr
  · intro h
    obtain ⟨before, call, rfl, hcall, rfl, hboundary⟩ := h
    obtain ⟨hmarker, -, ⟨gap, hhead, hgap⟩, after, hargs⟩ := callAt?_eq_some_iff.mp hcall
    refine ⟨hmarker, before, gap, after, ?_, hgap, rfl, ?_, ?_⟩
    · rw [hhead, hargs, List.append_assoc]
    · rw [hhead]
    · exact hboundary.imp_left endsAtBoundary_iff.mp

/-- One call starts at a place at most. -/
theorem IsCall.eq_of_start (h : IsCall script marker offset boundary site)
    (h' : IsCall script marker offset boundary site') (hstart : site.start = site'.start) :
    site = site' := by
  obtain ⟨before, call, hscript, hcall, rfl, -⟩ := isCall_iff.mp h
  obtain ⟨before', call', hscript', hcall', rfl, -⟩ := isCall_iff.mp h'
  obtain ⟨rfl, hrest⟩ := Text.append_inj_of_byteSize (hscript.symm.trans hscript') hstart
  rw [hrest, hcall'] at hcall
  rw [Option.some.inj hcall]

/-- The calls at or behind a place are cuts of the text from there on. -/
theorem isCall_append_iff :
    IsCall (before ++ rest) marker (Text.byteSize before) boundary site ∧
        Text.byteSize before ≤ site.start ↔
      ∃ u call, rest = u ++ (call.head ++ call.args) ∧
        callAt? marker (call.head ++ call.args) = some call ∧
        site = ⟨Text.byteSize (before ++ u), Text.byteSize (before ++ u ++ call.head)⟩ ∧
        (endsAtBoundary (before ++ u) ∨ boundary ∧ u = []) := by
  constructor
  · intro h
    obtain ⟨hcall, hle⟩ := h
    obtain ⟨before', call, hscript, hread, rfl, hboundary⟩ := isCall_iff.mp hcall
    obtain ⟨u, rfl, hrest⟩ := Text.exists_append_of_byteSize_le hscript hle
    refine ⟨u, call, hrest, hread, rfl, hboundary.imp_right fun hfree => ⟨hfree.1, ?_⟩⟩
    have hsize : Text.byteSize (before ++ u) = Text.byteSize before := hfree.2
    rw [Text.byteSize_append] at hsize
    exact Text.byteSize_eq_zero.mp (by omega)
  · intro h
    obtain ⟨u, call, rfl, hread, rfl, hboundary⟩ := h
    refine ⟨isCall_iff.mpr ⟨before ++ u, call, by simp, hread, rfl, ?_⟩, by simp⟩
    refine hboundary.imp_right fun hfree => ⟨hfree.1, ?_⟩
    rw [hfree.2, List.append_nil]

/-! ### Searches -/

/-- From a proper place, the search is over the text from there on. -/
theorem find?_append (marker before rest : Text) (boundary : Bool) :
    find? (before ++ rest) (Text.byteSize before) marker boundary =
      (seekCall marker (boundary || endsAtBoundary before) [] rest).map fun found =>
        ⟨Text.byteSize (before ++ found.1), Text.byteSize (before ++ found.1 ++ found.2.head)⟩ := by
  rw [find?, Text.splitAt?_byteSize_append, Option.bind_some]
  simp [Nat.add_assoc]

/-- A call at a boundary is found from there. -/
theorem find?_of_callAt? (hbefore : endsAtBoundary before) {call : Call}
    (h : callAt? marker rest = some call) :
    find? (before ++ rest) (Text.byteSize before) marker false =
      some ⟨Text.byteSize before, Text.byteSize (before ++ call.head)⟩ := by
  rw [find?_append, hbefore, Bool.or_true, seekCall_of_callAt? h]
  simp

/-- From in front of uncalled text, the same call is found as from behind it. -/
theorem find?_uncalled {gap after : Text} (h : Uncalled marker before gap after) :
    find? (before ++ (gap ++ after)) (Text.byteSize before) marker false =
      find? (before ++ (gap ++ after)) (Text.byteSize (before ++ gap)) marker false := by
  rw [find?_append, ← List.append_assoc, find?_append, Bool.false_or, Bool.false_or,
    seekCall_uncalled h, seekCall_passed, Option.map_map]
  simp [Function.comp_def, Nat.add_assoc]

/-- What is found is a call, and the first one. -/
theorem find?_append_eq_some
    (h : find? (before ++ rest) (Text.byteSize before) marker boundary = some site) :
    (IsCall (before ++ rest) marker (Text.byteSize before) boundary site ∧
        Text.byteSize before ≤ site.start) ∧
      ∀ other, IsCall (before ++ rest) marker (Text.byteSize before) boundary other →
        Text.byteSize before ≤ other.start → site.start ≤ other.start := by
  obtain ⟨context, hcontext, hboundaries⟩ := exists_context boundary before
  rw [find?_append, ← hcontext] at h
  obtain ⟨⟨gap, call⟩, hseek, rfl⟩ := Option.map_eq_some_iff.mp h
  obtain ⟨u, after, hgap, rfl, huncalled, hboundary, hcall⟩ := seekCall_leftmost hseek
  obtain ⟨-, hafter, -⟩ := callAt?_eq_some_iff.mp hcall
  obtain rfl : gap = u := hgap
  refine ⟨isCall_append_iff.mpr ⟨gap, call, by rw [← hafter], hafter ▸ hcall, rfl,
    (hboundaries gap).mp hboundary⟩, fun other hother hle => ?_⟩
  obtain ⟨u', call', hrest, hcall', rfl, hboundary'⟩ := isCall_append_iff.mp ⟨hother, hle⟩
  -- A call in front of the one that is found would stand in text that the search passed over.
  rcases Text.append_eq_append_cases hrest with ⟨w, rfl, -⟩ | ⟨w, hw, rfl, hread⟩
  · simp
  · have hnone := huncalled u' w rfl hw ((hboundaries u').mpr hboundary')
    rw [← hread, hcall'] at hnone
    cases hnone

/-- A call is found where there is one. -/
theorem IsCall.exists_find?
    (h : IsCall (before ++ rest) marker (Text.byteSize before) boundary site)
    (hle : Text.byteSize before ≤ site.start) :
    ∃ found, find? (before ++ rest) (Text.byteSize before) marker boundary = some found := by
  obtain ⟨context, hcontext, hboundaries⟩ := exists_context boundary before
  obtain ⟨u, call, rfl, hcall, -, hboundary⟩ := isCall_append_iff.mp ⟨h, hle⟩
  rw [find?_append, ← hcontext]
  cases hseek : seekCall marker (endsAtBoundary context) [] (u ++ (call.head ++ call.args)) with
  | some found => exact ⟨_, rfl⟩
  | none =>
      have huncalled := seekCall_eq_none_iff.mp hseek
      have hnone := huncalled u _ rfl (ne_nil_of_callAt? hcall) ((hboundaries u).mpr hboundary)
      rw [List.append_nil, hcall] at hnone
      cases hnone

end Calls

/-- Only from a proper place is anything found. -/
theorem isPlace_of_find? {script marker : Text} {offset : Nat} {boundary : Bool} {site : CallSite}
    (h : find? script offset marker boundary = some site) : script.IsPlace offset := by
  obtain ⟨⟨before, rest⟩, hsplit, -⟩ := Option.bind_eq_some_iff.mp h
  obtain ⟨hscript, hoffset⟩ := Text.splitAt?_eq_some_iff.mp hsplit
  exact ⟨before, rest, hscript, hoffset⟩

section Sites

variable {script marker : Text} {offset : Nat} {boundary : Bool} {site : CallSite}

/-- A call site is a call of the script. -/
theorem isCall_of_find? (h : find? script offset marker boundary = some site) :
    IsCall script marker offset boundary site := by
  obtain ⟨before, rest, rfl, rfl⟩ := isPlace_of_find? h
  exact (find?_append_eq_some h).1.1

/-- The offsets of a call site are those of a call of the script. -/
theorem exists_of_find? (h : find? script offset marker boundary = some site) :
    ∃ before call, script = before ++ (call.head ++ call.args) ∧
      callAt? marker (call.head ++ call.args) = some call ∧
      site.start = Text.byteSize before ∧ site.paren = Text.byteSize (before ++ call.head) := by
  obtain ⟨before, call, hscript, hcall, rfl, -⟩ := isCall_iff.mp (isCall_of_find? h)
  exact ⟨before, call, hscript, hcall, rfl, rfl⟩

/-- A call site that is found at a boundary by itself is a call there. -/
theorem cut_of_find? (h : find? script offset marker false = some site) :
    ∃ before call, script = before ++ (call.head ++ call.args) ∧ endsAtBoundary before ∧
      callAt? marker (call.head ++ call.args) = some call ∧
      site.start = Text.byteSize before ∧ site.paren = Text.byteSize (before ++ call.head) := by
  obtain ⟨before, call, hscript, hcall, rfl, hboundary⟩ := isCall_iff.mp (isCall_of_find? h)
  exact ⟨before, call, hscript, hboundary.resolve_right nofun, hcall, rfl, rfl⟩

/-- From the start of an uncalled script, no call site is found. -/
theorem find?_eq_none (h : Uncalled marker [] script []) : find? script 0 marker false = none := by
  have hseek : seekCall marker (false || endsAtBoundary []) [] script = none :=
    seekCall_eq_none_iff.mpr h
  have hfind := find?_append marker [] script false
  rwa [hseek] at hfind

end Sites

/-- A search answers the first call of the marker at or behind a proper place, and it answers none
exactly if there is no call, or the place is not proper. -/
theorem find?_leftmost (script marker : Text) (offset : Nat) (boundary : Bool) :
    (∀ site, find? script offset marker boundary = some site ↔
      script.IsPlace offset ∧ IsCall script marker offset boundary site ∧ offset ≤ site.start ∧
        ∀ other, IsCall script marker offset boundary other → offset ≤ other.start →
          site.start ≤ other.start) ∧
      (find? script offset marker boundary = none ↔
        ¬ script.IsPlace offset ∨
          ∀ site, IsCall script marker offset boundary site → site.start < offset) := by
  by_cases hplace : script.IsPlace offset
  · obtain ⟨before, rest, rfl, rfl⟩ := hplace
    have hplace : (before ++ rest).IsPlace (Text.byteSize before) :=
      Text.isPlace_byteSize_append before rest
    refine ⟨fun site => ⟨fun h => ?_, fun h => ?_⟩, fun h => Or.inr fun site hsite => ?_,
      fun h => ?_⟩
    · obtain ⟨⟨hcall, hle⟩, hfirst⟩ := find?_append_eq_some h
      exact ⟨hplace, hcall, hle, hfirst⟩
    · obtain ⟨-, hcall, hle, hfirst⟩ := h
      obtain ⟨found, hfound⟩ := hcall.exists_find? hle
      obtain ⟨⟨hcall', hle'⟩, hfirst'⟩ := find?_append_eq_some hfound
      have hstart : found.start = site.start :=
        Nat.le_antisymm (hfirst' site hcall hle) (hfirst found hcall' hle')
      rw [hfound, hcall'.eq_of_start hcall hstart]
    · by_cases hle : Text.byteSize before ≤ site.start
      · obtain ⟨found, hfound⟩ := hsite.exists_find? hle
        rw [h] at hfound
        cases hfound
      · omega
    · rcases h with hnot | hnone
      · exact absurd hplace hnot
      · cases hfind : find? (before ++ rest) (Text.byteSize before) marker boundary with
        | none => rfl
        | some site =>
            obtain ⟨⟨hcall, hle⟩, -⟩ := find?_append_eq_some hfind
            have hlt := hnone site hcall
            omega
  · have hnone : find? script offset marker boundary = none := by
      cases hfind : find? script offset marker boundary with
      | none => rfl
      | some site => exact absurd (isPlace_of_find? hfind) hplace
    simp [hnone, hplace]

/-- The marker overlaps itself, and its second occurrence is the one that is called. -/
example : find? "a a a (x)".toList 0 "a a".toList false = some ⟨2, 6⟩ := by decide

end CallSite

end ElementScript
