import ElementScript.SourceMap

/-!
# Maps without gaps

The binary search finds the last span that starts at or before an offset
(`SourceMap.toSource_of_split`). In a map whose spans lie one behind the other from the start of a
text to its end (`SourceMap.Tiles`) this is the span that holds the offset, or the last one if the
offset is past the end. Adding the span of what is written next keeps the map without gaps
(`SourceMap.Tiles.push`). It alters no answer in front of the old end of the text
(`SourceMap.Tiles.toSource_push_of_lt`), and from there on it answers itself
(`SourceMap.Tiles.toSource_push_of_le`).
-/

namespace ElementScript

namespace SourceMap

/-! ### The binary search -/

/-- For a predicate that holds below `k` and nowhere else, the partition point is `k`. -/
theorem partitionPoint_eq {p : Nat → Bool} {k base size : Nat} (below : ∀ i, i < k → p i)
    (above : ∀ i, k ≤ i → p i = false) (hbase : base ≤ k) (hsize : k ≤ base + size) :
    partitionPoint p base size = k := by
  fun_induction partitionPoint p base size with
  | case1 base size hlt half ih =>
      -- Whichever half is kept, `k` is still within it.
      by_cases hk : base + half < k
      · have hp : p (base + half) = true := below _ hk
        rw [dif_pos hp] at ih
        rw [if_pos hp]
        exact ih (by omega) (by omega)
      · have hp : ¬ p (base + half) = true := by simp [above _ (Nat.le_of_not_lt hk)]
        rw [dif_neg hp] at ih
        rw [if_neg hp]
        exact ih hbase (by omega)
  | case2 base size hlt hp =>
      have hk : base < k := by
        by_cases hk : base < k
        · exact hk
        · rw [above base (by omega)] at hp
          exact absurd hp (by simp)
      omega
  | case3 base size hlt hp =>
      have hk : ¬ base < k := fun hk => hp (below base hk)
      omega

/-- The span that decides is the last one that starts at or before the offset. -/
theorem toSource_of_split {m : SourceMap} {before after : List Span} {s : Span} {offset : Nat}
    (hm : m.spans.toList = before ++ s :: after) (hbefore : ∀ r ∈ before, r.output ≤ offset)
    (hs : s.output ≤ offset) (hafter : ∀ r ∈ after, offset < r.output) :
    m.toSource offset = s.toSource offset := by
  have hget (i : Nat) : m.spans[i]? = (before ++ s :: after)[i]? := by
    rw [← hm, Array.getElem?_toList]
  have hsize : m.spans.size = before.length + (after.length + 1) := by
    rw [← Array.length_toList, hm]
    simp
  -- The spans of `before` and `s` itself start by the offset, those of `after` do not.
  have hpoint : partitionPoint (fun i => (m.spans[i]?).any (·.output ≤ offset)) 0 m.spans.size
      = before.length + 1 := by
    apply partitionPoint_eq
    · intro i hi
      rw [hget]
      by_cases hlt : i < before.length
      · rw [List.getElem?_append_left hlt, List.getElem?_eq_getElem hlt]
        simpa using hbefore _ (List.getElem_mem hlt)
      · obtain rfl : i = before.length := by omega
        simpa using hs
    · intro i hi
      rw [hget, List.getElem?_append_right (by omega)]
      obtain ⟨j, rfl⟩ : ∃ j, i = before.length + (j + 1) := ⟨i - before.length - 1, by omega⟩
      rw [Nat.add_sub_cancel_left, List.getElem?_cons_succ]
      cases hj : after[j]? with
      | none => rfl
      | some r =>
          have := hafter r (List.mem_of_getElem? hj)
          simp [this]
    · omega
    · omega
  simp only [toSource, hpoint]
  rw [hget, List.getElem?_append_right (Nat.le_refl _)]
  simp

theorem toSource_empty (offset : Nat) : empty.toSource offset = offset := by
  simp [toSource, empty, partitionPoint]

/-! ### Adding a span -/

theorem push_of_empty (m : SourceMap) {s : Span} (h : s.length = 0) : m.push s = m := by
  rw [push, if_pos h]

theorem toList_spans_push (m : SourceMap) {s : Span} (h : 0 < s.length) :
    (m.push s).spans.toList = m.spans.toList ++ [s] := by
  rw [push, if_neg (Nat.pos_iff_ne_zero.mp h), Array.toList_push]

/-! ### Spans without gaps -/

/-- The spans lie one behind the other from `start` to `stop`, and none is empty. -/
def Tiles (start stop : Nat) : List Span → Prop
  | [] => start = stop
  | s :: rest => s.output = start ∧ 0 < s.length ∧ Tiles (start + s.length) stop rest

namespace Tiles

variable {start stop offset : Nat} {spans : List Span} {m : SourceMap} {r s : Span}

/-- A span that begins where the others end goes on without a gap. -/
theorem concat (h : Tiles start stop spans) (hs : s.output = stop) (hpos : 0 < s.length) :
    Tiles start (stop + s.length) (spans ++ [s]) := by
  induction spans generalizing start with
  | nil =>
      obtain rfl : start = stop := h
      exact ⟨hs, hpos, rfl⟩
  | cons first rest ih =>
      obtain ⟨houtput, hlength, hrest⟩ := h
      exact ⟨houtput, hlength, ih hrest⟩

/-- Every span stands between the two ends. -/
theorem bounds (h : Tiles start stop spans) (hr : r ∈ spans) :
    start ≤ r.output ∧ r.output < stop := by
  have hle {start : Nat} {spans : List Span} (h : Tiles start stop spans) : start ≤ stop := by
    induction spans generalizing start with
    | nil => exact Nat.le_of_eq h
    | cons first rest ih => exact Nat.le_trans (Nat.le_add_right _ _) (ih h.2.2)
  induction spans generalizing start with
  | nil => exact absurd hr (by simp)
  | cons first rest ih =>
      obtain ⟨houtput, hlength, hrest⟩ := h
      have hstop := hle hrest
      rcases List.mem_cons.mp hr with rfl | hr
      · omega
      · have := ih hrest hr
        omega

/-- An offset between the two ends divides the spans into those in front of it, the one that it is
in, and those behind it. -/
theorem exists_split (h : Tiles start stop spans) (hstart : start ≤ offset)
    (hstop : offset < stop) :
    ∃ before s after, spans = before ++ s :: after ∧ (∀ r ∈ before, r.output ≤ offset) ∧
      s.output ≤ offset ∧ ∀ r ∈ after, offset < r.output := by
  induction spans generalizing start with
  | nil =>
      obtain rfl : start = stop := h
      omega
  | cons first rest ih =>
      obtain ⟨houtput, hlength, hrest⟩ := h
      by_cases hlt : offset < start + first.length
      · refine ⟨[], first, rest, rfl, by simp, by omega, fun r hr => ?_⟩
        have := (hrest.bounds hr).1
        omega
      · obtain ⟨before, s, after, rfl, hbefore, hs, hafter⟩ := ih hrest (by omega)
        refine ⟨first :: before, s, after, rfl, ?_, hs, hafter⟩
        intro r hr
        rcases List.mem_cons.mp hr with rfl | hr
        · omega
        · exact hbefore r hr

/-- The span of what is written at the end of the text leaves no gap, and none either if nothing is
written. -/
theorem push (h : Tiles start stop m.spans.toList) (hs : s.output = stop) :
    Tiles start (stop + s.length) (m.push s).spans.toList := by
  rcases Nat.eq_zero_or_pos s.length with hzero | hpos
  · rw [push_of_empty m hzero, hzero]
    exact h
  · rw [toList_spans_push m hpos]
    exact h.concat hs hpos

/-- What is written at the end of the text alters no answer in front of it. -/
theorem toSource_push_of_lt (h : Tiles 0 stop m.spans.toList) (hs : s.output = stop)
    (hlt : offset < stop) : (m.push s).toSource offset = m.toSource offset := by
  rcases Nat.eq_zero_or_pos s.length with hzero | hpos
  · rw [push_of_empty m hzero]
  · have hspans := toList_spans_push m hpos
    obtain ⟨before, r, after, hm, hbefore, hr, hafter⟩ := h.exists_split (Nat.zero_le _) hlt
    rw [hm, List.append_assoc, List.cons_append] at hspans
    rw [toSource_of_split hm hbefore hr hafter]
    refine toSource_of_split hspans hbefore hr fun q hq => ?_
    rcases List.mem_append.mp hq with hq | hq
    · exact hafter q hq
    · rw [List.mem_singleton.mp hq]
      omega

/-- From the old end of the text on, the span of what is written there answers. -/
theorem toSource_push_of_le (h : Tiles 0 stop m.spans.toList) (hs : s.output = stop)
    (hpos : 0 < s.length) (hle : stop ≤ offset) :
    (m.push s).toSource offset = s.toSource offset := by
  refine toSource_of_split (toList_spans_push m hpos) (fun r hr => ?_) (by omega) (by simp)
  have := (h.bounds hr).2
  omega

end Tiles

end SourceMap

end ElementScript
