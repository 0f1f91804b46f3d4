import ElementScript.Diagnostic
import ElementScript.Proofs.Text.Position

/-!
# The caret of a report

A row of a report is written in parts, each a mark, which a terminal does not show, and the text
behind it (`Diagnostic.Part`). A gutter is as wide whatever its label is, since it has room for the
number of the line (`Diagnostic.length_gutterText`). The line shown for the position of a character
has all characters in front of it that its column counts (`Text.BeginsWithLine.exists_eq`), so the
caret stands under the character (`Diagnostic.pointAt_caret_below`).
-/

namespace ElementScript

/-! ### The character in its line -/

/-- A character that is no part of the end of its line stands in the line, behind what the line has
in front of it. -/
theorem Text.BeginsWithLine.exists_eq {l rest line : Text} {c : Char}
    (h : BeginsWithLine (l ++ c :: rest) line) (hl : '\n' ∉ l) (hc : c ≠ '\n')
    (hreturn : c = '\r' → rest.head? ≠ some '\n') : ∃ line', line = l ++ c :: line' := by
  have hnewline : '\n' ∉ l ++ [c] := by simp [hl, Ne.symm hc]
  have hcut : l ++ c :: rest = l ++ [c] ++ rest := by simp
  generalize ht : l ++ c :: rest = t at h
  cases h with
  | last hne hline => exact ⟨rest, ht.symm⟩
  | @lineFeed _ rest' hline hlast =>
      rw [hcut] at ht
      rcases append_eq_append_cases ht with ⟨v, rfl, -⟩ | ⟨w, hw, hlw, hrest⟩
      · exact ⟨v, by simp⟩
      · -- The line feed would stand in front of the character.
        cases w with
        | nil => exact absurd rfl hw
        | cons d w =>
            obtain ⟨rfl, -⟩ := List.cons.inj hrest
            exact absurd (hlw ▸ List.mem_append_right line List.mem_cons_self) hnewline
  | @carriageReturn _ rest' hline =>
      rw [hcut] at ht
      rcases append_eq_append_cases ht with ⟨v, rfl, -⟩ | ⟨w, hw, hlw, hrest⟩
      · exact ⟨v, by simp⟩
      · cases w with
        | nil => exact absurd rfl hw
        | cons d w =>
            obtain ⟨rfl, hbehind⟩ := List.cons.inj hrest
            cases w with
            | nil =>
                -- The character is the carriage return at the end of the line.
                obtain ⟨-, hlast⟩ := List.append_inj' hlw rfl
                obtain ⟨hchar, -⟩ := List.cons.inj hlast
                exact absurd (congrArg List.head? hbehind).symm (hreturn hchar)
            | cons e w =>
                obtain ⟨rfl, -⟩ := List.cons.inj hbehind
                exact absurd (hlw ▸ by simp) hnewline

/-- The position of a character names a line that is shown, with as many characters in front of the
character as its column says. -/
theorem Position.line?_of_character {u l rest : Text} {c : Char} (hu : u.StartsLine) (hl : '\n' ∉ l)
    (hc : c ≠ '\n') (hreturn : c = '\r' → rest.head? ≠ some '\n') :
    ∃ line', Text.line? (u ++ l ++ c :: rest) (u.count '\n') = some (l ++ c :: line') ∧
      Text.BeginsWithLine (l ++ c :: rest) (l ++ c :: line') := by
  obtain ⟨line, hline, hbegins⟩ :=
    Text.exists_firstLine (List.append_ne_nil_of_right_ne_nil l (List.cons_ne_nil c rest))
  obtain ⟨line', rfl⟩ := hbegins.exists_eq hl hc hreturn
  exact ⟨line', by rw [List.append_assoc, Text.line?_append hu, hline], hbegins⟩

theorem Text.BeginsWithLine.newline_notMem {t line : Text} (h : BeginsWithLine t line) :
    '\n' ∉ line := by
  cases h <;> assumption

namespace Diagnostic

/-! ### Parts of a row -/

/-- A mark, and the text behind it. -/
structure Part where
  mark : String
  text : String

/-- The row that is written in parts. -/
def Part.written (parts : List Part) : Text :=
  parts.flatMap fun part => part.mark.toList ++ part.text.toList

/-- The row without its marks. -/
def Part.shown (parts : List Part) : Text := parts.flatMap fun part => part.text.toList

/-- The marks of a palette. -/
def Palette.marks (palette : Palette) : List String :=
  [palette.error, palette.dim, palette.help, palette.bold, palette.reset]

/-- The text without terminal sequences, each of which is an escape character and what follows up to
the next `m`. `inside` tells whether one has begun. -/
def withoutSequences (inside : Bool) : Text → Text
  | [] => []
  | c :: t =>
    if inside then withoutSequences (c != 'm') t
    else if c = '\x1b' then withoutSequences true t
    else c :: withoutSequences false t

theorem withoutSequences_append {s : Text} (hs : '\x1b' ∉ s) (t : Text) :
    withoutSequences false (s ++ t) = s ++ withoutSequences false t := by
  induction s with
  | nil => rfl
  | cons c s ih =>
      rw [List.mem_cons, not_or] at hs
      rw [List.cons_append, withoutSequences, if_neg Bool.false_ne_true, if_neg (Ne.symm hs.1),
        ih hs.2]
      rfl

/-- The marks of the terminal are terminal sequences. -/
theorem withoutSequences_mark {mark : String} (hmark : mark ∈ Palette.terminal.marks) (t : Text) :
    withoutSequences false (mark.toList ++ t) = withoutSequences false t := by
  simp only [Palette.marks, Palette.terminal, List.mem_cons, List.not_mem_nil, or_false] at hmark
  rcases hmark with rfl | rfl | rfl | rfl | rfl <;> rfl

/-- Without marks, a row is written as it is shown. -/
theorem Part.written_plain {palette : Palette} (hpalette : palette = .plain) {parts : List Part}
    (hparts : ∀ part ∈ parts, part.mark ∈ palette.marks) : written parts = shown parts := by
  subst hpalette
  induction parts with
  | nil => rfl
  | cons part parts ih =>
      rw [List.forall_mem_cons] at hparts
      have hmark : part.mark = "" := by
        simpa [Palette.marks, Palette.plain] using hparts.1
      simp only [written, shown, List.flatMap_cons] at ih ⊢
      rw [hmark, ih hparts.2]
      rfl

/-- A terminal shows a row without its marks. -/
theorem Part.withoutSequences_written {palette : Palette} (hpalette : palette = .terminal)
    {parts : List Part} (hparts : ∀ part ∈ parts, part.mark ∈ palette.marks)
    (hescape : '\x1b' ∉ shown parts) : withoutSequences false (written parts) = shown parts := by
  subst hpalette
  induction parts with
  | nil => rfl
  | cons part parts ih =>
      rw [List.forall_mem_cons] at hparts
      simp only [written, shown, List.flatMap_cons, List.mem_append, not_or] at hescape ih ⊢
      rw [List.append_assoc, withoutSequences_mark hparts.1, withoutSequences_append hescape.1,
        ih hescape.2 hparts.2]

/-! ### Gutters -/

theorem toList_alignRight (width : Nat) (label : String) :
    (alignRight width label).toList =
      List.replicate (width - label.length) ' ' ++ label.toList := by
  rw [alignRight, String.toList_append, String.toList_ofList]

/-- What is shown left of the script, with `label` in it. -/
def gutterText (p : Position) (label : String) : Text :=
  (alignRight (gutterWidth p) label).toList ++ " | ".toList

theorem exists_gutterText (p : Position) (label : String) :
    ∃ n, gutterText p label = List.replicate n ' ' ++ label.toList ++ " | ".toList :=
  ⟨_, by rw [gutterText, toList_alignRight]⟩

/-- A gutter has room for the number of the line, and is as wide without it. -/
theorem length_gutterText (p : Position) {label : String}
    (hlabel : label.length ≤ (Nat.repr (p.line + 1)).length) :
    (gutterText p label).length = gutterWidth p + 3 := by
  have hwidth : label.length ≤ gutterWidth p := hlabel.trans (Nat.le_max_right _ _)
  rw [gutterText, toList_alignRight, List.length_append, List.length_append, List.length_replicate,
    String.length_toList, Nat.sub_add_cancel hwidth]
  rfl

theorem notMem_gutterText (p : Position) {label : String} {c : Char} (hc : c ∉ label.toList)
    (hblank : c ≠ ' ') (hbar : c ≠ '|') : c ∉ gutterText p label := by
  rw [gutterText, toList_alignRight]
  simp [hc, hblank, hbar]

theorem notMem_repr {n : Nat} {c : Char} (hc : ¬ c.isDigit) : c ∉ (Nat.repr n).toList := by
  rw [Nat.repr_eq_ofList_toDigits, String.toList_ofList]
  exact fun hmem => hc (Nat.isDigit_of_mem_toDigits (by decide) (by decide) hmem)

/-! ### The two rows -/

/-- The parts of the row that shows the line of the script. -/
def sourceParts (palette : Palette) (p : Position) (line : Text) : List Part :=
  [⟨palette.dim, alignRight (gutterWidth p) (Nat.repr (p.line + 1)) ++ " |"⟩,
    ⟨palette.reset, " " ++ String.ofList line⟩]

/-- The parts of the row below it. -/
def caretParts (palette : Palette) (p : Position) : List Part :=
  [⟨palette.dim, alignRight (gutterWidth p) "" ++ " |"⟩,
    ⟨palette.reset, " " ++ String.ofList (List.replicate p.column ' ')⟩, ⟨palette.error, "^"⟩,
    ⟨palette.reset, ""⟩]

theorem written_sourceParts (palette : Palette) (p : Position) (line : Text) :
    String.ofList (Part.written (sourceParts palette p line)) = sourceRow palette p line := by
  rw [← String.toList_inj]
  simp [Part.written, sourceParts, sourceRow, gutter]

theorem written_caretParts (palette : Palette) (p : Position) :
    String.ofList (Part.written (caretParts palette p)) = caretRow palette p := by
  rw [← String.toList_inj]
  simp [Part.written, caretParts, caretRow, gutter]

theorem shown_sourceParts (palette : Palette) (p : Position) (line : Text) :
    Part.shown (sourceParts palette p line) = gutterText p (Nat.repr (p.line + 1)) ++ line := by
  simp [Part.shown, sourceParts, gutterText]

theorem shown_caretParts (palette : Palette) (p : Position) :
    Part.shown (caretParts palette p) =
      gutterText p "" ++ (List.replicate p.column ' ' ++ ['^']) := by
  simp [Part.shown, caretParts, gutterText]

theorem notMem_shown_sourceParts (palette : Palette) (p : Position) {line : Text} {c : Char}
    (hdigit : ¬ c.isDigit) (hblank : c ≠ ' ') (hbar : c ≠ '|') (hline : c ∉ line) :
    c ∉ Part.shown (sourceParts palette p line) := by
  rw [shown_sourceParts, List.mem_append, not_or]
  exact ⟨notMem_gutterText p (notMem_repr hdigit) hblank hbar, hline⟩

theorem notMem_shown_caretParts (palette : Palette) (p : Position) {c : Char} (hblank : c ≠ ' ')
    (hbar : c ≠ '|') (hcaret : c ≠ '^') : c ∉ Part.shown (caretParts palette p) := by
  rw [shown_caretParts, List.mem_append, not_or]
  exact ⟨notMem_gutterText p List.not_mem_nil hblank hbar, by simp [hblank, hcaret]⟩

theorem marks_parts (palette : Palette) (p : Position) (line : Text) :
    ∀ part ∈ sourceParts palette p line ++ caretParts palette p, part.mark ∈ palette.marks := by
  simp [sourceParts, caretParts, Palette.marks]

/-- No mark ends a row. -/
theorem newline_notMem_written {palette : Palette} (hpalette : palette ∈ [.plain, .terminal])
    {parts : List Part} (hmarks : ∀ part ∈ parts, part.mark ∈ palette.marks)
    (hshown : '\n' ∉ Part.shown parts) : '\n' ∉ Part.written parts := by
  have hmark : ∀ mark ∈ palette.marks, '\n' ∉ mark.toList := by
    rw [List.mem_cons, List.mem_singleton] at hpalette
    rcases hpalette with rfl | rfl <;> decide
  simp only [Part.written, Part.shown, List.mem_flatMap, List.mem_append, not_exists, not_and,
    not_or] at hshown ⊢
  exact fun part hpart => ⟨hmark _ (hmarks part hpart), hshown part hpart⟩

/-- Two rows of a report, and the line of a script that they are about. -/
structure Excerpt where
  /-- The rows above the two. -/
  above : List String
  /-- The row that shows the line. -/
  source : List Part
  /-- The row below it. -/
  caret : List Part
  /-- The rows below the two. -/
  below : List String
  /-- What both rows show left of the script. -/
  gutter : Text
  emptyGutter : Text
  /-- The line, in front of the character and behind it. -/
  front : Text
  back : Text

/-- The report shows the line of the character `c` of a script, which has `before` in front of it,
and below it a row with a caret in the column in which the character is shown. -/
structure Excerpt.PointsAt (x : Excerpt) (palette : Palette) (report : String) (before : Text)
    (c : Char) (after : Text) : Prop where
  /-- The two are rows of the report, one below the other. -/
  report_eq : report = String.join
    ((x.above ++ [String.ofList (Part.written x.source), String.ofList (Part.written x.caret)] ++
      x.below).map (· ++ "\n"))
  newline_notMem : '\n' ∉ Part.written x.source ∧ '\n' ∉ Part.written x.caret
  /-- The line is the one in which the character stands. -/
  line : ∃ lineStart, before = lineStart ++ x.front ∧ lineStart.StartsLine ∧
    Text.BeginsWithLine (x.front ++ c :: after) (x.front ++ c :: x.back)
  /-- Without its marks, the first row shows the line behind a gutter. -/
  shown_source : Part.shown x.source = x.gutter ++ x.front ++ c :: x.back
  /-- Without its marks, the second row shows a caret behind a gutter and blanks. -/
  shown_caret : Part.shown x.caret = x.emptyGutter ++ List.replicate x.front.length ' ' ++ ['^']
  /-- The gutters are equally wide, and one of them shows the number of the line. -/
  length_gutter : x.gutter.length = x.emptyGutter.length
  gutter : ∃ n, x.gutter = List.replicate n ' ' ++ (Nat.repr (before.count '\n' + 1)).toList ++
    " | ".toList
  emptyGutter : ∃ n, x.emptyGutter = List.replicate n ' ' ++ " | ".toList
  /-- The marks are those of the palette: there are none, or they are terminal sequences. -/
  marks : ∀ part ∈ x.source ++ x.caret, part.mark ∈ palette.marks
  plain : palette = .plain → Part.written x.source = Part.shown x.source ∧
    Part.written x.caret = Part.shown x.caret
  terminal : palette = .terminal → '\x1b' ∉ x.front ++ c :: x.back →
    withoutSequences false (Part.written x.source) = Part.shown x.source ∧
      withoutSequences false (Part.written x.caret) = Part.shown x.caret

/-- A report that is pointed at a character of a script shows the line of the character, unless the
character ends the line, and a caret right below the character. -/
theorem pointAt_caret_below (d : Diagnostic) {before after : Text} {c : Char} (hc : c ≠ '\n')
    (hreturn : c = '\r' → after.head? ≠ some '\n') {palette : Palette}
    (hpalette : palette ∈ [.plain, .terminal]) (filename : String) :
    ∃ x : Excerpt, x.PointsAt palette
      ((d.pointAt (before ++ c :: after) (Text.byteSize before)).render palette filename)
      before c after := by
  obtain ⟨u, l, rfl, hu, hl⟩ := Text.exists_lineStart before
  obtain ⟨line', hline, hbegins⟩ := Position.line?_of_character hu hl hc hreturn
  have hlocate := Position.locate_byteSize_append (u ++ l) (c :: after)
  rw [Position.after_append hu hl] at hlocate
  generalize hp : (⟨Text.byteSize (u ++ l), u.count '\n', l.length⟩ : Position) = p at hlocate
  have hcolumn : p.column = l.length := by rw [← hp]
  have hlineNumber : u.count '\n' = p.line := by rw [← hp]
  rw [hlineNumber] at hline
  have hmarks := marks_parts palette p (l ++ c :: line')
  rw [List.forall_mem_append] at hmarks
  let x : Excerpt :=
    { above := ["", fileRow (d.pointAt (u ++ l ++ c :: after) (Text.byteSize (u ++ l))) palette
        filename, d.errorRow palette, Diagnostic.gutter palette p ""]
      source := sourceParts palette p (l ++ c :: line')
      caret := caretParts palette p
      below := d.helpRows palette ++ [""]
      gutter := gutterText p (Nat.repr (p.line + 1))
      emptyGutter := gutterText p ""
      front := l
      back := line' }
  refine ⟨x, ?_⟩
  have hescape (hline : '\x1b' ∉ l ++ c :: line') : '\x1b' ∉ Part.shown x.source ∧
      '\x1b' ∉ Part.shown x.caret :=
    ⟨notMem_shown_sourceParts _ p (by decide) (by decide) (by decide) hline,
      notMem_shown_caretParts _ p (by decide) (by decide) (by decide)⟩
  exact
    { report_eq := by
        rw [written_sourceParts, written_caretParts]
        simp only [x, render, rows, excerpt, pointAt, hlocate, hline]
        simp [helpRows, errorRow]
      newline_notMem :=
        ⟨newline_notMem_written hpalette hmarks.1 (notMem_shown_sourceParts palette p (by decide)
            (by decide) (by decide) hbegins.newline_notMem),
          newline_notMem_written hpalette hmarks.2 (notMem_shown_caretParts palette p (by decide)
            (by decide) (by decide))⟩
      line := ⟨u, rfl, hu, hbegins⟩
      shown_source := by rw [shown_sourceParts, List.append_assoc]
      shown_caret := by rw [shown_caretParts, hcolumn, List.append_assoc]
      length_gutter := by
        rw [length_gutterText p le_rfl, length_gutterText p (Nat.zero_le _)]
      gutter := by
        rw [List.count_append, List.count_eq_zero.mpr hl, Nat.add_zero, hlineNumber]
        exact exists_gutterText p (Nat.repr (p.line + 1))
      emptyGutter := by simpa using exists_gutterText p ""
      marks := marks_parts palette p (l ++ c :: line')
      plain := fun h => ⟨Part.written_plain h hmarks.1, Part.written_plain h hmarks.2⟩
      terminal := fun h hline =>
        ⟨Part.withoutSequences_written h hmarks.1 (hescape hline).1,
          Part.withoutSequences_written h hmarks.2 (hescape hline).2⟩ }

/-- A brace in the hundredth line, behind a tabulator and a letter of two bytes. -/
theorem hundredthLine_caret_below :
    '\x7b' ≠ '\n' ∧ ('\x7b' = '\r' → ['\r', '\n'].head? ≠ some '\n') ∧
      Palette.terminal ∈ [.plain, .terminal] ∧
      ∃ x : Excerpt, x.PointsAt .terminal
        ((pointAt (.ofCause (.blockNeverClosed 2))
            (List.replicate 99 '\n' ++ ['\t', '\u00e9'] ++ '\x7b' :: ['\r', '\n'])
            (Text.byteSize (List.replicate 99 '\n' ++ ['\t', '\u00e9']))).render .terminal "_a.js")
        (List.replicate 99 '\n' ++ ['\t', '\u00e9']) '\x7b' ['\r', '\n'] :=
  ⟨by decide, by decide, by decide, pointAt_caret_below _ (by decide) (by decide) (by decide) _⟩

end Diagnostic

end ElementScript
