import ElementScript.Piece
import ElementScript.Proofs.SourceMap.Tiling
import ElementScript.Proofs.Text.Place

/-!
# The way back through a list of edits

What `SourceMap.ofEdits` does to an offset, read off the edits themselves. The binary search finds
the last span that starts at or before the offset (`SourceMap.toSource_of_split`), and in the map of
an edit list this is the span of the edit that wrote the byte at the offset, or of the last edit
that wrote anything (`toSource_ofEdits`). From this one equation it follows that

* proper places lead to proper places (`isPlace_toSource_ofEdits`);
* a byte that was copied is found again where it leads to (`bytes_toSource_ofEdits`);
* text kept in front moves both sides by its size (`toSource_ofEdits_keepAll_append`).
-/

namespace ElementScript

namespace SourceMap

/-- The byte at `offset` was copied from the source. -/
def Copies (m : SourceMap) (offset : Nat) : Prop :=
  ∃ s ∈ m.spans.toList, s.copied ∧ s.output ≤ offset ∧ offset < s.output + s.length

end SourceMap

namespace Edit

/-! ### The spans of an edit list -/

@[simp] theorem output_span (output source : Nat) (e : Edit) :
    (e.span output source).output = output := by
  cases e <;> rfl

@[simp] theorem length_span (output source : Nat) (e : Edit) :
    (e.span output source).length = Text.byteSize e.after := by
  cases e <;> simp [span, after]

/-- The spans that edits leave, the first of which writes at `output` over the source at `source`;
an edit that writes nothing leaves none. -/
def spans (output source : Nat) : List Edit → List Span
  | [] => []
  | e :: es =>
    let rest := spans (output + Text.byteSize e.after) (source + Text.byteSize e.before) es
    if e.after = [] then rest else e.span output source :: rest

theorem toList_spans_pushEdits (m : SourceMap) (output source : Nat) (edits : List Edit) :
    (m.pushEdits output source edits).spans.toList =
      m.spans.toList ++ spans output source edits := by
  induction edits generalizing m output source with
  | nil => simp [SourceMap.pushEdits, spans]
  | cons e es ih =>
      rw [SourceMap.pushEdits, ih, spans]
      by_cases h : e.after = []
      · simp [SourceMap.push, h]
      · simp [SourceMap.push, h]

theorem toList_spans_ofEdits (edits : List Edit) :
    (SourceMap.ofEdits edits).spans.toList = spans 0 0 edits := by
  rw [SourceMap.ofEdits, toList_spans_pushEdits]
  rfl

theorem spans_append (output source : Nat) (es fs : List Edit) :
    spans output source (es ++ fs) = spans output source es ++
      spans (output + Text.byteSize (Edit.output es)) (source + Text.byteSize (Edit.source es))
        fs := by
  induction es generalizing output source with
  | nil => simp [spans]
  | cons e es ih =>
      rw [List.cons_append, spans, spans, ih]
      by_cases h : e.after = []
      · simp [h, Nat.add_assoc]
      · simp [h, Nat.add_assoc]

/-- Every span is that of an edit which writes something. -/
theorem exists_of_mem_spans {output source : Nat} {edits : List Edit} {r : Span}
    (h : r ∈ spans output source edits) :
    ∃ es e fs, edits = es ++ e :: fs ∧ e.after ≠ [] ∧
      r = e.span (output + Text.byteSize (Edit.output es))
        (source + Text.byteSize (Edit.source es)) := by
  induction edits generalizing output source with
  | nil => simp [spans] at h
  | cons e es ih =>
      rw [spans] at h
      by_cases he : e.after = []
      · obtain ⟨es', e', fs, rfl, he', rfl⟩ := ih (by simpa [he] using h)
        exact ⟨e :: es', e', fs, rfl, he', by simp [he, Nat.add_assoc]⟩
      · rcases (by simpa [he] using h : r = e.span output source ∨ _) with rfl | h
        · exact ⟨[], e, es, rfl, he, by simp⟩
        · obtain ⟨es', e', fs, rfl, he', rfl⟩ := ih h
          exact ⟨e :: es', e', fs, rfl, he', by simp [Nat.add_assoc]⟩

/-- Spans start inside the text that the edits write. -/
theorem output_le_of_mem_spans {output source : Nat} {edits : List Edit} {r : Span}
    (h : r ∈ spans output source edits) :
    output ≤ r.output ∧ r.output < output + Text.byteSize (Edit.output edits) := by
  obtain ⟨es, e, fs, rfl, he, rfl⟩ := exists_of_mem_spans h
  have := Text.byteSize_pos he
  simp only [output_span, output_append, output_cons, Text.byteSize_append]
  omega

/-- Edits that write nothing leave no span. -/
theorem spans_eq_nil {output source : Nat} {edits : List Edit} (h : Edit.output edits = []) :
    spans output source edits = [] := by
  rw [List.eq_nil_iff_forall_not_mem]
  intro r hr
  have := output_le_of_mem_spans hr
  rw [h, Text.byteSize_nil] at this
  omega

/-- An offset belongs to the edit that wrote the byte there; one at or past the end belongs to the
last edit that wrote anything. -/
theorem exists_writer (edits : List Edit) (offset : Nat) :
    Edit.output edits = [] ∨ ∃ es e fs, edits = es ++ e :: fs ∧ e.after ≠ [] ∧
      Text.byteSize (Edit.output es) ≤ offset ∧
      (offset < Text.byteSize (Edit.output es) + Text.byteSize e.after ∨
        Edit.output fs = []) := by
  induction edits generalizing offset with
  | nil => exact Or.inl rfl
  | cons e es ih =>
      -- Behind what the first edit wrote, the offset counts from there.
      by_cases hlt : offset < Text.byteSize e.after
      · refine Or.inr ⟨[], e, es, rfl, ?_, Nat.zero_le _, Or.inl (by simpa using hlt)⟩
        intro he
        simp [he] at hlt
      · rcases ih (offset - Text.byteSize e.after) with hnil | ⟨es', e', fs, rfl, he', hle, hfs⟩
        · by_cases he : e.after = []
          · exact Or.inl (by simp [he, hnil])
          · exact Or.inr ⟨[], e, es, rfl, he, Nat.zero_le _, Or.inr hnil⟩
        · refine Or.inr ⟨e :: es', e', fs, rfl, he', ?_, ?_⟩
          · simp only [output_cons, Text.byteSize_append]
            omega
          · refine hfs.imp_left fun h => ?_
            simp only [output_cons, Text.byteSize_append]
            omega

end Edit

namespace SourceMap

open Edit

/-! ### Offsets through the map of an edit list -/

/-- An offset leads back through the span of the edit that wrote the byte there. -/
theorem toSource_ofEdits {es fs : List Edit} {e : Edit} {offset : Nat} (he : e.after ≠ [])
    (hle : Text.byteSize (output es) ≤ offset)
    (hfs : offset < Text.byteSize (output es) + Text.byteSize e.after ∨ output fs = []) :
    (ofEdits (es ++ e :: fs)).toSource offset =
      (e.span (Text.byteSize (output es)) (Text.byteSize (source es))).toSource offset := by
  have hspans : (ofEdits (es ++ e :: fs)).spans.toList = Edit.spans 0 0 es ++
      e.span (Text.byteSize (output es)) (Text.byteSize (source es)) ::
        Edit.spans (Text.byteSize (output es) + Text.byteSize e.after)
          (Text.byteSize (source es) + Text.byteSize e.before) fs := by
    rw [toList_spans_ofEdits, spans_append, Edit.spans, if_neg he]
    simp
  refine toSource_of_split hspans ?_ ?_ ?_
  · intro r hr
    have := output_le_of_mem_spans hr
    omega
  · simpa using hle
  · intro r hr
    rcases hfs with hlt | hnil
    · have := output_le_of_mem_spans hr
      omega
    · rw [spans_eq_nil hnil] at hr
      exact absurd hr (by simp)

/-- The places of a text that was kept in one piece lead back to the same places of that text in the
source. -/
theorem toSource_ofEdits_kept (es fs : List Edit) (p : Text) {q : Text} (hq : q ≠ []) :
    (ofEdits (es ++ (keepAll (p ++ q) ++ fs))).toSource (Text.byteSize (output es ++ p)) =
      Text.byteSize (source es ++ p) := by
  obtain ⟨c, q, rfl⟩ := List.exists_cons_of_ne_nil hq
  have hedits : es ++ (keepAll (p ++ c :: q) ++ fs) =
      (es ++ keepAll p) ++ .keep c :: (keepAll q ++ fs) := by
    simp [keepAll]
  have houtput : output (es ++ keepAll p) = output es ++ p := by simp
  have hsource : source (es ++ keepAll p) = source es ++ p := by simp
  have hlt : Text.byteSize (output (es ++ keepAll p)) <
      Text.byteSize (output (es ++ keepAll p)) + Text.byteSize (Edit.keep c).after :=
    Nat.lt_add_of_pos_right (Text.byteSize_pos (List.cons_ne_nil c []))
  have he : (Edit.keep c).after ≠ [] := List.cons_ne_nil c []
  rw [hedits, ← houtput, ← hsource, toSource_ofEdits he (Nat.le_refl _) (Or.inl hlt)]
  simp [span, Span.toSource]

/-- The map of edits that write nothing leads nowhere else. -/
theorem toSource_ofEdits_of_output_nil {edits : List Edit} (h : output edits = [])
    (offset : Nat) : (ofEdits edits).toSource offset = offset := by
  have hspans : (ofEdits edits).spans = #[] := by
    rw [← Array.toList_eq_nil_iff, toList_spans_ofEdits, spans_eq_nil h]
  have hempty : ofEdits edits = empty := by
    cases hm : ofEdits edits
    rw [hm] at hspans
    cases hspans
    rfl
  rw [hempty, toSource_empty]

/-- A proper place of the edited text leads back to a proper place of the source. -/
theorem isPlace_toSource_ofEdits {edits : List Edit} {offset : Nat}
    (h : (output edits).IsPlace offset) :
    (source edits).IsPlace ((ofEdits edits).toSource offset) := by
  rcases exists_writer edits offset with hnil | ⟨es, e, fs, rfl, he, hle, hfs⟩
  · rw [toSource_ofEdits_of_output_nil hnil]
    have hzero : offset = 0 := by
      have := h.le
      rw [hnil, Text.byteSize_nil] at this
      omega
    rw [hzero]
    exact Text.isPlace_zero _
  · rw [toSource_ofEdits he hle hfs, source_append, source_cons]
    cases e with
    | replace old new => exact Text.isPlace_byteSize_append _ _
    | keep c =>
        -- A place does not fall inside `c`, so it is the place before `c` or at or past its end.
        have hinside : offset ≤ Text.byteSize (output es) ∨
            Text.byteSize (output es) + c.utf8Size ≤ offset :=
          Text.IsPlace.not_inside (t := output fs) (by simpa [after] using h)
        simp only [span, Span.toSource, if_true, before]
        rcases hinside with hstart | hend
        · have hmin : min (offset - Text.byteSize (output es)) c.utf8Size = 0 := by omega
          rw [hmin]
          exact Text.isPlace_byteSize_append _ _
        · have hmin : min (offset - Text.byteSize (output es)) c.utf8Size = c.utf8Size := by omega
          rw [hmin]
          exact ⟨source es ++ [c], source fs, by simp, by simp⟩

/-- The place in the source of a byte that an edit list copies. -/
theorem Copies.exists_keep {edits : List Edit} {offset : Nat} (h : (ofEdits edits).Copies offset) :
    ∃ es c fs k, edits = es ++ .keep c :: fs ∧ k < c.utf8Size ∧
      offset = Text.byteSize (output es) + k ∧
      (ofEdits edits).toSource offset = Text.byteSize (source es) + k := by
  obtain ⟨s, hs, hcopied, hle, hlt⟩ := h
  rw [toList_spans_ofEdits] at hs
  obtain ⟨es, e, fs, rfl, he, rfl⟩ := exists_of_mem_spans hs
  cases e with
  | replace old new => exact absurd hcopied (by simp [span])
  | keep c =>
      simp only [span, Nat.zero_add] at hle hlt
      refine ⟨es, c, fs, offset - Text.byteSize (output es), rfl, by omega, by omega, ?_⟩
      rw [toSource_ofEdits he hle (Or.inl (by simpa [after] using hlt))]
      simp only [span, Span.toSource, if_true]
      omega

/-- A byte that was copied is the byte of the source that it leads back to. -/
theorem bytes_toSource_ofEdits {edits : List Edit} {offset : Nat}
    (h : (ofEdits edits).Copies offset) :
    (source edits).bytes[(ofEdits edits).toSource offset]? = (output edits).bytes[offset]? := by
  obtain ⟨es, c, fs, k, rfl, hk, hoffset, hsource⟩ := h.exists_keep
  have hs : source (es ++ .keep c :: fs) = source es ++ c :: source fs := by simp [before]
  have ho : output (es ++ .keep c :: fs) = output es ++ c :: output fs := by simp [after]
  rw [hsource, hoffset, hs, ho, Text.bytes_getElem?_char _ _ _ hk,
    Text.bytes_getElem?_char _ _ _ hk]

/-- Text that is kept in front of the edits moves offsets and their sources by its size. -/
theorem toSource_ofEdits_keepAll_append (q : Text) {edits : List Edit} {offset : Nat}
    (h : offset ≤ Text.byteSize (output edits)) :
    (ofEdits (keepAll q ++ edits)).toSource (Text.byteSize q + offset) =
      Text.byteSize q + (ofEdits edits).toSource offset := by
  rcases exists_writer edits offset with hnil | ⟨es, e, fs, rfl, he, hle, hfs⟩
  · -- Nothing is written behind `q`, so its end counts as the end of its last character.
    obtain rfl : offset = 0 := by simpa [hnil] using h
    rw [toSource_ofEdits_of_output_nil hnil, Nat.add_zero]
    rcases List.eq_nil_or_concat q with rfl | ⟨q, c, rfl⟩
    · exact toSource_ofEdits_of_output_nil (by simpa [keepAll] using hnil) _
    · rw [List.concat_eq_append]
      have hkeep : keepAll (q ++ [c]) ++ edits = keepAll q ++ .keep c :: edits := by
        simp [keepAll]
      rw [hkeep, toSource_ofEdits (by simp [after]) (by simp) (Or.inr hnil)]
      simp [span, Span.toSource]
  · have hle' : Text.byteSize (output (keepAll q ++ es)) ≤ Text.byteSize q + offset := by
      simpa using hle
    have hfs' : Text.byteSize q + offset <
        Text.byteSize (output (keepAll q ++ es)) + Text.byteSize e.after ∨ output fs = [] := by
      refine Or.imp_left (fun hlt => ?_) hfs
      rw [output_append, output_keepAll, Text.byteSize_append]
      omega
    rw [toSource_ofEdits he hle hfs, ← List.append_assoc, toSource_ofEdits he hle' hfs']
    cases e with
    | replace old new => simp [span, Span.toSource]
    | keep c =>
        simp only [span, Span.toSource, if_true, output_append, output_keepAll, source_append,
          source_keepAll, Text.byteSize_append]
        omega

end SourceMap

end ElementScript
