import Mathlib.Order.Monotone.Basic
import ElementScript.Proofs.Relocation

/-!
# The way back keeps the order

Edits go over their source from left to right, so what is written further on comes from further on.
Two offsets belong to the same edit, or to two of which the one is behind the other
(`Edit.IsWriter.eq_or_behind`), and the span of an edit stays within the stretch of source that the
edit covers. So one map keeps the order of offsets (`SourceMap.monotone_toSource_ofEdits`), and of
two bytes that it copies it tells which one is first. All of this holds of maps in a row too,
whichever passes made them (`runPasses_keeps_order`).
-/

namespace ElementScript

/-! ### The edits that write bytes -/

namespace Edit

/-- Between `es` and `fs`, the edit `e` wrote the byte at the offset, or it was the last one to
write anything and the offset is past the end. -/
structure IsWriter (es : List Edit) (e : Edit) (fs : List Edit) (offset : Nat) : Prop where
  ne_nil : e.after ≠ []
  le : Text.byteSize (output es) ≤ offset
  lt_or_last : offset < Text.byteSize (output es) + Text.byteSize e.after ∨ output fs = []

variable {es fs es' fs' : List Edit} {e e' : Edit} {m n : Nat}

/-- An edit leads no further back than the stretch of source that it covers. -/
theorem le_toSource_span (output source : Nat) (e : Edit) (offset : Nat) :
    source ≤ (e.span output source).toSource offset ∧
      (e.span output source).toSource offset ≤ source + Text.byteSize e.before := by
  cases e with
  | keep c =>
      simp only [span, Span.toSource, if_true, before, Text.byteSize_cons, Text.byteSize_nil]
      omega
  | replace old new => simp [span, Span.toSource]

/-- Inside the span of one edit, offsets lead back in order. -/
theorem toSource_span_le (output source : Nat) (e : Edit) (hle : m ≤ n) :
    (e.span output source).toSource m ≤ (e.span output source).toSource n := by
  cases e with
  | keep c =>
      simp only [span, Span.toSource, if_true]
      omega
  | replace old new => simp [span, Span.toSource]

theorem IsWriter.toSource_eq (h : IsWriter es e fs n) :
    (SourceMap.ofEdits (es ++ e :: fs)).toSource n =
      (e.span (Text.byteSize (output es)) (Text.byteSize (source es))).toSource n :=
  SourceMap.toSource_ofEdits h.ne_nil h.le h.lt_or_last

theorem exists_isWriter {edits : List Edit} (h : output edits ≠ []) (offset : Nat) :
    ∃ es e fs, edits = es ++ e :: fs ∧ IsWriter es e fs offset := by
  rcases exists_writer edits offset with hnil | ⟨es, e, fs, hedits, he, hle, hfs⟩
  · exact absurd hnil h
  · exact ⟨es, e, fs, hedits, he, hle, hfs⟩

/-- Of two offsets, the one that is not in front of the other belongs to the same edit, or to one
further on. -/
theorem IsWriter.eq_or_behind (h : IsWriter es e fs m) (h' : IsWriter es' e' fs' n)
    (hedits : es ++ e :: fs = es' ++ e' :: fs') (hle : m ≤ n) :
    (es = es' ∧ e = e' ∧ fs = fs') ∨ ∃ gs, es' = es ++ e :: gs := by
  rcases List.append_eq_append_iff.mp hedits with ⟨gs, rfl, hgs⟩ | ⟨gs, rfl, hgs⟩
  · cases gs with
    | nil =>
        rw [List.nil_append, List.cons.injEq] at hgs
        exact Or.inl ⟨by simp, hgs⟩
    | cons d gs =>
        rw [List.cons_append, List.cons.injEq] at hgs
        exact Or.inr ⟨gs, by rw [hgs.1]⟩
  · cases gs with
    | nil =>
        rw [List.nil_append, List.cons.injEq] at hgs
        exact Or.inl ⟨by simp, hgs.1.symm, hgs.2.symm⟩
    | cons d gs =>
        -- The edit of `n` would be in front of that of `m`, which wrote something behind it.
        rw [List.cons_append, List.cons.injEq] at hgs
        obtain ⟨rfl, rfl⟩ := hgs
        exfalso
        have hm := h.le
        have hpos := Text.byteSize_pos h.ne_nil
        rcases h'.lt_or_last with hlt | hlast
        · simp only [output_append, output_cons, Text.byteSize_append] at hm
          omega
        · have hsize := congrArg Text.byteSize hlast
          simp only [output_append, output_cons, Text.byteSize_append, Text.byteSize_nil] at hsize
          omega

end Edit

namespace SourceMap

open Edit

/-! ### One map -/

/-- The way back through a list of edits keeps the order of offsets. -/
theorem monotone_toSource_ofEdits (edits : List Edit) : Monotone (ofEdits edits).toSource := by
  intro m n hle
  by_cases hnil : output edits = []
  · rwa [toSource_ofEdits_of_output_nil hnil, toSource_ofEdits_of_output_nil hnil]
  · obtain ⟨es, e, fs, hm, hwriter⟩ := exists_isWriter hnil m
    obtain ⟨es', e', fs', hn, hwriter'⟩ := exists_isWriter hnil n
    have hsource := hwriter.toSource_eq
    have hsource' := hwriter'.toSource_eq
    rw [← hm] at hsource
    rw [← hn] at hsource'
    rw [hsource, hsource']
    rcases hwriter.eq_or_behind hwriter' (hm.symm.trans hn) hle with ⟨rfl, rfl, rfl⟩ | ⟨gs, rfl⟩
    · exact toSource_span_le _ _ e hle
    · -- What lies between the two edits in the source separates where they lead.
      have hstop := (le_toSource_span (Text.byteSize (output es)) (Text.byteSize (source es)) e m).2
      have hstart := (le_toSource_span (Text.byteSize (output (es ++ e :: gs)))
        (Text.byteSize (source (es ++ e :: gs))) e' n).1
      have hsize : Text.byteSize (source (es ++ e :: gs)) =
          Text.byteSize (source es) + Text.byteSize e.before + Text.byteSize (source gs) := by
        simp [Nat.add_assoc]
      omega

/-- Of two bytes that are copied, the one in front was copied from further in front. -/
theorem strictMonoOn_toSource_ofEdits (edits : List Edit) :
    StrictMonoOn (ofEdits edits).toSource {offset | (ofEdits edits).Copies offset} := by
  intro m hm n hn hlt
  obtain ⟨es, c, fs, k, hedits, hk, rfl, hsource⟩ := Copies.exists_keep hm
  obtain ⟨es', d, fs', l, hedits', hl, rfl, hsource'⟩ := Copies.exists_keep hn
  have hwriter : IsWriter es (.keep c) fs (Text.byteSize (output es) + k) :=
    ⟨List.cons_ne_nil c [], Nat.le_add_right _ _, Or.inl (by simpa [after] using hk)⟩
  have hwriter' : IsWriter es' (.keep d) fs' (Text.byteSize (output es') + l) :=
    ⟨List.cons_ne_nil d [], Nat.le_add_right _ _, Or.inl (by simpa [after] using hl)⟩
  rw [hsource, hsource']
  rcases hwriter.eq_or_behind hwriter' (hedits.symm.trans hedits') hlt.le with
    ⟨rfl, -, -⟩ | ⟨gs, rfl⟩
  · omega
  · simp only [source_append, source_cons, before, Text.byteSize_append, Text.byteSize_cons]
    omega

end SourceMap

/-! ### Maps in a row -/

namespace EditedFrom

variable {script text : Text} {maps : List SourceMap}

theorem monotone_traceBack (h : EditedFrom script text maps) : Monotone (traceBack maps) := by
  induction h with
  | start => exact monotone_id
  | edit edits before ih => exact ih.comp (SourceMap.monotone_toSource_ofEdits edits)

/-- Offsets of the text lead back to offsets of the script. -/
theorem traceBack_le (h : EditedFrom script text maps) {offset : Nat}
    (hle : offset ≤ Text.byteSize text) : traceBack maps offset ≤ Text.byteSize script := by
  have hend : text.IsPlace (Text.byteSize text) := ⟨text, [], by simp, rfl⟩
  exact Nat.le_trans (h.monotone_traceBack hle) (h.isPlace_traceBack hend).le

/-- Of two bytes that are copied all the way, the one in front comes from further in front. -/
theorem strictMonoOn_traceBack (h : EditedFrom script text maps) :
    StrictMonoOn (traceBack maps) {offset | CopiedThrough maps offset} := by
  induction h with
  | start => exact strictMono_id.strictMonoOn _
  | edit edits before ih =>
      intro m hm n hn hlt
      exact ih hm.2 hn.2 (SourceMap.strictMonoOn_toSource_ofEdits edits hm.1 hn.1 hlt)

end EditedFrom

/-- The offsets of what any passes make of a script lead back to offsets of the script in the same
order, proper places lead to proper places, and of the bytes that all passes copied no two lead to
the same one: text that is copied is neither put in another order nor written twice. -/
theorem runPasses_keeps_order {v : Vocabulary} {passes : List Pass} {script : Text} {p : Progress}
    (h : runPasses v passes script = .ok p) :
    Monotone p.origin ∧
      (∀ offset ≤ Text.byteSize p.script, p.origin offset ≤ Text.byteSize script) ∧
      (∀ offset, p.script.IsPlace offset → script.IsPlace (p.origin offset)) ∧
      StrictMonoOn p.origin {offset | CopiedThrough p.maps offset} ∧
      ∀ offset, CopiedThrough p.maps offset →
        script.bytes[p.origin offset]? = p.script.bytes[offset]? := by
  have hedited := editedFrom_of_runPasses h
  exact ⟨hedited.monotone_traceBack, fun _ hle => hedited.traceBack_le hle,
    fun _ hplace => hedited.isPlace_traceBack hplace, hedited.strictMonoOn_traceBack,
    fun _ hcopied => hedited.bytes_traceBack hcopied⟩

instance (m : SourceMap) (offset : Nat) : Decidable (m.Copies offset) :=
  inferInstanceAs (Decidable (∃ s ∈ m.spans.toList, s.copied ∧ s.output ≤ offset ∧
    offset < s.output + s.length))

instance decidableCopiedThrough : ∀ (maps : List SourceMap) (offset : Nat),
    Decidable (CopiedThrough maps offset)
  | [], _ => inferInstanceAs (Decidable True)
  | m :: maps, offset =>
    have := decidableCopiedThrough maps (m.toSource offset)
    inferInstanceAs (Decidable (m.Copies offset ∧ CopiedThrough maps (m.toSource offset)))

/-- All passes, and the first one again: the blank in front of the callback and the brace behind it
are copied from behind the listener, and the dispatcher comes from the end of the script. -/
theorem movedListener_keeps_order :
    let script := "addChangeListener(\"a\", v => \x7b f(v); \x7d); ::moved() \x7b\x7d // b".toList
    ∃ p, runPasses .standard (Pass.standard ++ [.comments]) script = .ok p ∧
      CopiedThrough p.maps 0 ∧ CopiedThrough p.maps 19 ∧ p.origin 0 = 39 ∧
      p.origin 0 < p.origin 19 ∧ ¬ CopiedThrough p.maps 40 ∧ p.origin 19 ≤ p.origin 40 ∧
      p.origin 40 ≤ Text.byteSize script := by
  intro script
  have hrun : (runPasses .standard (Pass.standard ++ [.comments]) script).toOption.any fun p =>
      CopiedThrough p.maps 0 ∧ CopiedThrough p.maps 19 ∧ p.origin 0 = 39 ∧
        ¬ CopiedThrough p.maps 40 ∧ 40 ≤ Text.byteSize p.script := by
    decide +kernel
  cases hp : runPasses .standard (Pass.standard ++ [.comments]) script with
  | error f =>
      rw [hp] at hrun
      cases hrun
  | ok p =>
      rw [hp] at hrun
      obtain ⟨hfirst, hsecond, horigin, hmoved, hinside⟩ := of_decide_eq_true hrun
      obtain ⟨hmono, hle, -, hstrict, -⟩ := runPasses_keeps_order hp
      exact ⟨p, rfl, hfirst, hsecond, horigin, hstrict hfirst hsecond (by decide), hmoved,
        hmono (by decide), hle 40 hinside⟩

end ElementScript
