import Mathlib.Data.List.Induction
import Mathlib.Data.List.TakeWhile
import Mathlib.Data.Prod.Lex
import Mathlib.Order.Bounds.Defs
import ElementScript.Proofs.Text.Place

/-!
# Lines and columns of a text

A place stands in the line that starts behind the last line feed in front of it, and its column
counts the characters from there (`Position.after_append`). Cutting a text into lines starts anew
behind each line feed (`Text.getElem?_linesFrom`), so the line that a position names is the one that
begins where the line of the position starts. From both it follows that positions tell places apart
and keep their order, and that they point into the line shown (`Position.locate_faithful`).
-/

namespace ElementScript

namespace Text

/-! ### Where lines start -/

/-- Behind the text a line starts: nothing stands there, or a line feed at its end. -/
def StartsLine (t : Text) : Prop := t = [] ∨ ∃ u, t = u ++ ['\n']

/-- The line with which a text begins, without its terminator: a line feed, or a carriage return and
a line feed. No line begins in an empty text. -/
inductive BeginsWithLine : Text → Text → Prop where
  | last {line : Text} (hne : line ≠ []) (hline : '\n' ∉ line) : BeginsWithLine line line
  | lineFeed {line rest : Text} (hline : '\n' ∉ line) (hlast : line.getLast? ≠ some '\r') :
      BeginsWithLine (line ++ '\n' :: rest) line
  | carriageReturn {line rest : Text} (hline : '\n' ∉ line) :
      BeginsWithLine (line ++ '\r' :: '\n' :: rest) line

variable {line t : Text}

/-- A text is cut in front of its last line. -/
theorem exists_lineStart (t : Text) : ∃ u l, t = u ++ l ∧ StartsLine u ∧ '\n' ∉ l := by
  induction t using List.reverseRecOn with
  | nil => exact ⟨[], [], rfl, Or.inl rfl, List.not_mem_nil⟩
  | append_singleton t c ih =>
      by_cases hc : c = '\n'
      · exact ⟨t ++ [c], [], by simp, Or.inr ⟨t, by rw [hc]⟩, List.not_mem_nil⟩
      · obtain ⟨u, l, rfl, hu, hl⟩ := ih
        refine ⟨u, l ++ [c], by simp, hu, ?_⟩
        rw [List.mem_append, List.mem_singleton, not_or]
        exact ⟨hl, Ne.symm hc⟩

/-- Where a line starts, the last one has no characters. -/
theorem StartsLine.eq_nil {u l : Text} (h : StartsLine (u ++ l)) (hl : '\n' ∉ l) : l = [] := by
  rcases h with hnil | ⟨w, hw⟩
  · exact (List.append_eq_nil_iff.mp hnil).2
  · rcases List.eq_nil_or_concat l with hnil | ⟨l, c, rfl⟩
    · exact hnil
    · rw [List.concat_eq_append] at hw hl
      rw [← List.append_assoc] at hw
      obtain ⟨-, hc⟩ := List.append_inj' hw rfl
      exact absurd (List.mem_append_right l (List.mem_singleton.mpr (List.cons.inj hc).1.symm)) hl

/-! ### Cutting a text into lines -/

theorem linesFrom_cons {c : Char} (hc : c ≠ '\n') (line t : Text) :
    linesFrom line (c :: t) = linesFrom (c :: line) t := by
  rw [linesFrom]
  exact hc

/-- A line whose characters have been read, last one first, without the carriage return at its
end. -/
def finishLine : Text → Text
  | '\r' :: line => line.reverse
  | line => line.reverse

theorem linesFrom_newline (line t : Text) :
    linesFrom line ('\n' :: t) = finishLine line :: lines t := rfl

theorem finishLine_of_ne {line : Text} (h : line.head? ≠ some '\r') :
    finishLine line = line.reverse := by
  unfold finishLine
  split
  · exact absurd rfl h
  · rfl

/-- Up to a line feed, characters are gathered into one line. -/
theorem linesFrom_append {w : Text} (hw : '\n' ∉ w) (line t : Text) :
    linesFrom line (w ++ t) = linesFrom (w.reverse ++ line) t := by
  induction w generalizing line with
  | nil => rfl
  | cons c w ih =>
      rw [List.mem_cons, not_or] at hw
      obtain ⟨hc, hw⟩ := hw
      rw [List.cons_append, linesFrom_cons (Ne.symm hc), ih hw]
      simp

/-- The first line of a text is the one with which it begins. -/
theorem exists_firstLine {t : Text} (ht : t ≠ []) :
    ∃ line, (lines t)[0]? = some line ∧ BeginsWithLine t line := by
  by_cases hline : '\n' ∈ t
  · obtain ⟨w, rest, rfl, hw⟩ := List.eq_append_cons_of_mem hline
    have hlines : (lines (w ++ '\n' :: rest))[0]? = some (finishLine w.reverse) := by
      rw [lines, linesFrom_append hw, List.append_nil, linesFrom_newline]
      rfl
    rw [hlines]
    by_cases hreturn : w.getLast? = some '\r'
    · obtain ⟨line, rfl⟩ := List.getLast?_eq_some_iff.mp hreturn
      have hline : '\n' ∉ line := fun hmem => hw (List.mem_append_left _ hmem)
      refine ⟨line, by simp [finishLine], ?_⟩
      rw [List.append_assoc]
      exact .carriageReturn hline
    · rw [finishLine_of_ne (by rwa [List.head?_reverse]), List.reverse_reverse]
      exact ⟨w, rfl, .lineFeed hw hreturn⟩
  · have hlines : lines t = [t] := by
      rw [lines, ← List.append_nil t, linesFrom_append hline]
      simp [linesFrom, ht]
    exact ⟨t, by rw [hlines]; rfl, .last ht hline⟩

/-- Behind a line feed, a text is cut as at its start. -/
theorem getElem?_linesFrom (line u t : Text) :
    (linesFrom line (u ++ '\n' :: t))[u.count '\n' + 1]? = (lines t)[0]? := by
  induction u generalizing line with
  | nil => rw [List.nil_append, linesFrom_newline, List.count_nil, List.getElem?_cons_succ]
  | cons c u ih =>
      by_cases hc : c = '\n'
      · rw [List.cons_append, hc, linesFrom_newline, List.count_cons_self, List.getElem?_cons_succ]
        exact ih []
      · rw [List.cons_append, linesFrom_cons hc, List.count_cons_of_ne hc, ih]

/-- The line that starts behind a text is the first one of what stands there. -/
theorem line?_append {u : Text} (hu : StartsLine u) (t : Text) :
    line? (u ++ t) (u.count '\n') = (lines t)[0]? := by
  rcases hu with rfl | ⟨u, rfl⟩
  · rfl
  · rw [line?, lines, List.append_assoc, List.count_append, List.count_singleton_self]
    exact getElem?_linesFrom [] u t

/-- Where no line feed stands up to a place, the line reaches up to it, save for the carriage return
at its end. -/
theorem BeginsWithLine.length_le {l rest : Text} (h : BeginsWithLine (l ++ rest) line)
    (hl : '\n' ∉ l) : l.length ≤ line.length + 1 := by
  -- Up to the first line feed stand the line and a carriage return, if there is one.
  have hbound {w rest' : Text} (hw : l ++ rest = w ++ '\n' :: rest') : l.length ≤ w.length := by
    rcases append_eq_append_cases hw.symm with ⟨u, rfl, hu⟩ | ⟨u, -, rfl, -⟩
    · cases u with
      | nil => simp
      | cons d u =>
          obtain ⟨rfl, -⟩ := List.cons.inj hu
          exact absurd (List.mem_append_right w List.mem_cons_self) hl
    · simp
  generalize ht : l ++ rest = t at h
  cases h with
  | last hne hline =>
      rw [← ht, List.length_append]
      omega
  | lineFeed hline hlast => exact Nat.le_succ_of_le (hbound ht)
  | @carriageReturn _ rest' hline =>
      have hw : l ++ rest = (line ++ ['\r']) ++ '\n' :: rest' := by simpa using ht
      simpa using hbound hw

/-! ### The cut at an offset -/

/-- A text is cut behind the last character that fits in front of the offset. -/
theorem exists_cut (t : Text) (n : Nat) :
    ∃ before rest, t = before ++ rest ∧ byteSize before ≤ n ∧
      ∀ c u, rest = c :: u → n < byteSize before + c.utf8Size := by
  induction t generalizing n with
  | nil => exact ⟨[], [], rfl, Nat.zero_le n, nofun⟩
  | cons c t ih =>
      by_cases hfits : c.utf8Size ≤ n
      · obtain ⟨before, rest, rfl, hle, hlt⟩ := ih (n - c.utf8Size)
        refine ⟨c :: before, rest, rfl, ?_, fun d u hrest => ?_⟩
        · rw [byteSize_cons]
          omega
        · have := hlt d u hrest
          rw [byteSize_cons]
          omega
      · refine ⟨[], c :: t, rfl, Nat.zero_le n, fun d u hrest => ?_⟩
        obtain ⟨rfl, -⟩ := List.cons.inj hrest
        rw [byteSize_nil]
        omega

/-- A text is taken whole that fits in front of the offset. -/
theorem takeBytes_of_byteSize_le {t : Text} {n : Nat} (h : byteSize t ≤ n) : takeBytes n t = t := by
  have htake (passed : Text) : takeBytesFrom passed n t = passed.reverse ++ t := by
    induction t generalizing passed n with
    | nil => simp [takeBytesFrom]
    | cons c t ih =>
        rw [byteSize_cons] at h
        rw [takeBytesFrom, if_pos (by omega), ih (by omega)]
        simp
  exact htake []

end Text

/-! ### Positions -/

namespace Position

/-- Line and column, in the order in which the script is read. -/
def lineColumn (p : Position) : ℕ ×ₗ ℕ := toLex (p.line, p.column)

/-- Line and column are read off the cut in front of the last line. -/
theorem after_append {u l : Text} (hu : Text.StartsLine u) (hl : '\n' ∉ l) :
    after (u ++ l) = ⟨Text.byteSize (u ++ l), u.count '\n', l.length⟩ := by
  have hcount : l.count '\n' = 0 := List.count_eq_zero.mpr hl
  have hcolumn : (u ++ l).reverse.takeWhile (· != '\n') = l.reverse := by
    have hself : l.reverse.takeWhile (· != '\n') = l.reverse := by
      rw [List.takeWhile_eq_self_iff]
      exact fun c hc => bne_iff_ne.mpr (ne_of_mem_of_not_mem (List.mem_reverse.mp hc) hl)
    rcases hu with rfl | ⟨u, rfl⟩
    · exact hself
    · rw [List.append_assoc, List.reverse_append, List.reverse_append, List.reverse_singleton,
        List.append_assoc, List.singleton_append, takeWhile_append_newline, hself]
  rw [after, hcolumn, List.count_append, hcount, List.length_reverse, Nat.add_zero]

/-- A place further on comes later. -/
theorem lineColumn_after_lt (before : Text) {v : Text} (hv : v ≠ []) :
    (after before).lineColumn < (after (before ++ v)).lineColumn := by
  rw [lineColumn, lineColumn, Prod.Lex.toLex_lt_toLex]
  by_cases hline : '\n' ∈ v
  · refine Or.inl ?_
    have hpos := List.count_pos_iff.mpr hline
    simp only [after, List.count_append]
    omega
  · -- Both stand in the same line.
    obtain ⟨u, l, rfl, hu, hl⟩ := Text.exists_lineStart before
    have hlv : '\n' ∉ l ++ v := by simp [hl, hline]
    have hlength := List.length_pos_iff.mpr hv
    rw [List.append_assoc, after_append hu hl, after_append hu hlv, List.length_append]
    exact Or.inr ⟨rfl, Nat.lt_add_of_pos_right hlength⟩

/-- An offset is located at the last place that is not behind it. -/
theorem exists_place (source : Text) (offset : Nat) :
    ∃ before rest, source = before ++ rest ∧ locate source offset = after before ∧
      IsGreatest {place | source.IsPlace place ∧ place ≤ offset} (Text.byteSize before) := by
  obtain ⟨before, rest, rfl, hle, hlt⟩ := Text.exists_cut source offset
  refine ⟨before, rest, rfl, ?_, ⟨Text.isPlace_byteSize_append before rest, hle⟩, ?_⟩
  · cases rest with
    | nil => rw [List.append_nil, locate, Text.takeBytes_of_byteSize_le hle]
    | cons c t =>
        have hinside := hlt c t rfl
        obtain ⟨k, rfl⟩ := Nat.exists_eq_add_of_le hle
        exact locate_inside before t (by omega)
  · rintro place ⟨⟨a, b, hcut, rfl⟩, hplace⟩
    rcases Text.append_eq_append_cases hcut with ⟨v, rfl, hv⟩ | ⟨v, -, rfl, -⟩
    · cases v with
      | nil => simp
      | cons c v =>
          have hbehind := hlt c (v ++ b) hv
          simp only [Text.byteSize_append, Text.byteSize_cons] at hplace
          omega
    · simp

/-- The line of a position begins where its line starts, and reaches up to its column. There is none
where nothing stands behind the start of the line. -/
theorem line?_after {u l : Text} (hu : Text.StartsLine u) (hl : '\n' ∉ l) (rest : Text) :
    (Text.line? (u ++ (l ++ rest)) (after (u ++ l)).line = none ↔ l ++ rest = []) ∧
      ∀ line, Text.line? (u ++ (l ++ rest)) (after (u ++ l)).line = some line →
        Text.BeginsWithLine (l ++ rest) line ∧ l.length ≤ line.length + 1 := by
  rw [after_append hu hl]
  dsimp only
  rw [Text.line?_append hu]
  by_cases hnil : l ++ rest = []
  · rw [hnil]
    exact ⟨iff_of_true rfl rfl, fun line hline => by cases hline⟩
  · obtain ⟨first, hfirst, hbegins⟩ := Text.exists_firstLine hnil
    rw [hfirst]
    refine ⟨iff_of_false nofun hnil, fun line hline => ?_⟩
    obtain rfl := Option.some.inj hline
    exact ⟨hbegins, hbegins.length_le hl⟩

/-- Places further on are located later. -/
theorem strictMonoOn_locate (source : Text) :
    StrictMonoOn (fun place => (locate source place).lineColumn) {place | source.IsPlace place} := by
  rintro m ⟨a, b, ha, rfl⟩ n ⟨c, d, rfl, rfl⟩ hlt
  obtain ⟨v, rfl, rfl⟩ := Text.exists_append_of_byteSize_le ha.symm hlt.le
  have hv : v ≠ [] := by
    rintro rfl
    simp at hlt
  have hfirst := locate_byteSize_append a (v ++ d)
  rw [← List.append_assoc] at hfirst
  dsimp only
  rw [hfirst, locate_byteSize_append]
  exact lineColumn_after_lt a hv

/-- The line in which an offset is located has no text if the offset is behind all text and a line
starts there, and only then. -/
theorem lineText_eq_nil_iff {u l rest : Text} {offset : Nat} (hu : u.StartsLine) (hl : '\n' ∉ l)
    (h : IsGreatest {place | (u ++ l ++ rest).IsPlace place ∧ place ≤ offset}
      (Text.byteSize (u ++ l))) :
    l ++ rest = [] ↔ Text.byteSize (u ++ l ++ rest) ≤ offset ∧ (u ++ l ++ rest).StartsLine := by
  constructor
  · intro hnil
    obtain ⟨rfl, rfl⟩ := List.append_eq_nil_iff.mp hnil
    exact ⟨by simpa using h.1.2, by simpa using hu⟩
  · rintro ⟨hle, hstarts⟩
    -- The end of the text is a place, so it is the one that is located.
    have hplace : (u ++ l ++ rest).IsPlace (Text.byteSize (u ++ l ++ rest)) :=
      ⟨_, [], (List.append_nil _).symm, rfl⟩
    have hlast := h.2 ⟨hplace, hle⟩
    have hrest : rest = [] := by
      rw [Text.byteSize_append _ rest] at hlast
      exact Text.byteSize_eq_zero.mp (by omega)
    rw [hrest, List.append_nil] at hstarts ⊢
    exact hstarts.eq_nil hl

/-- Line and column of a proper place tell it apart from all others, and places further on come
later. Any offset is located at the last proper place that is not behind it. The line shown for it
is the one that begins where the line of the position starts, and the column is not behind its end,
or behind the carriage return there. No line is shown at the end of a text that is empty or ends in
a line feed, and only there. -/
theorem locate_faithful (source : Text) :
    StrictMonoOn (fun place => (locate source place).lineColumn) {place | source.IsPlace place} ∧
      Set.InjOn (fun place => (locate source place).lineColumn) {place | source.IsPlace place} ∧
      ∀ offset,
        (∃ place, IsGreatest {place | source.IsPlace place ∧ place ≤ offset} place ∧
          locate source offset = locate source place ∧ (locate source offset).byte = place) ∧
        (source.line? (locate source offset).line = none ↔
          Text.byteSize source ≤ offset ∧ source.StartsLine) ∧
        ∀ line, source.line? (locate source offset).line = some line →
          ∃ u l rest, source = u ++ (l ++ rest) ∧ u.StartsLine ∧ '\n' ∉ l ∧
            locate source offset = ⟨Text.byteSize (u ++ l), u.count '\n', l.length⟩ ∧
            Text.BeginsWithLine (l ++ rest) line ∧ l.length ≤ line.length + 1 := by
  refine ⟨strictMonoOn_locate source, (strictMonoOn_locate source).injOn, fun offset => ?_⟩
  obtain ⟨before, rest, rfl, hlocate, hgreatest⟩ := exists_place source offset
  obtain ⟨u, l, rfl, hu, hl⟩ := Text.exists_lineStart before
  obtain ⟨hnone, hsome⟩ := line?_after hu hl rest
  rw [← List.append_assoc, ← hlocate] at hnone hsome
  refine ⟨⟨_, hgreatest, ?_, ?_⟩, ?_, fun line hline => ?_⟩
  · rw [hlocate, locate_byteSize_append]
  · rw [hlocate]
    rfl
  · rw [hnone, lineText_eq_nil_iff hu hl hgreatest]
  · obtain ⟨hbegins, hlength⟩ := hsome line hline
    exact ⟨u, l, rest, List.append_assoc u l rest, hu, hl, by rw [hlocate, after_append hu hl],
      hbegins, hlength⟩

/-- Between a carriage return and a line feed, the column is behind the end of the line shown. -/
example : locate "\u00e9\r\n".toList 3 = ⟨3, 0, 2⟩ ∧
    Text.line? "\u00e9\r\n".toList 0 = some ['\u00e9'] := by decide

end Position

end ElementScript
