import Mathlib.Data.Nat.Find
import ElementScript.Piece
import ElementScript.Proofs.SourceMap.Tiling
import ElementScript.Proofs.Text.Place

/-!
# The way back through pieces

A text can be put together from pieces exactly if every copied range fits its source
(`Piece.isSome_join?_iff`). One more piece appends its bytes and at most one span, and the map goes
on answering for all bytes in front of it (`Piece.Records.append_piece`), so whatever the pieces and
however many (`Piece.Records.append_pieces`), each byte leads back through the one piece in which it
lies, and offsets past the end through the last piece with any text (`Piece.join?_leads_back`). Edit
lists are written and recorded in this way too (`Edit.join?_pieces`), so their maps have no gaps
either.
-/

namespace ElementScript

namespace Piece

/-! ### A piece in the source -/

/-- The piece can be taken: its range is in order and lies between proper places. -/
def Fits (source : Text) : Piece → Prop
  | copied start stop => start ≤ stop ∧ source.IsPlace start ∧ source.IsPlace stop
  | inserted _ _ => True

/-- The bytes of the piece. -/
def bytes (source : Text) : Piece → List UInt8
  | copied start stop => source.bytes.extract start stop
  | inserted text _ => text.bytes

/-- The place that the byte number `k` of the piece comes from. -/
def origin (k : Nat) : Piece → Nat
  | copied start _ => start + k
  | inserted _ source => source

/-- The place in the source at which the piece ends. -/
def sourceEnd : Piece → Nat
  | copied _ stop => stop
  | inserted _ source => source

variable {source text t : Text} {pieces rest : List Piece} {p : Piece} {m : SourceMap}
  {i j offset output length : Nat}

theorem isSome_text?_iff : (p.text? source).isSome ↔ p.Fits source := by
  cases p with
  | copied start stop => exact Text.isSome_slice?_iff
  | inserted text place => exact iff_of_true rfl trivial

instance (source : Text) (p : Piece) : Decidable (p.Fits source) :=
  decidable_of_iff _ isSome_text?_iff

theorem bytes_of_text? (h : p.text? source = some t) : p.bytes source = t.bytes := by
  cases p with
  | copied start stop =>
      obtain ⟨before, after, rfl, rfl, rfl⟩ := Text.slice?_eq_some_iff.mp h
      exact Text.bytes_extract_append before t after
  | inserted text place =>
      obtain rfl : text = t := Option.some.inj h
      rfl

theorem length_bytes_of_text? (h : p.text? source = some t) :
    (p.bytes source).length = Text.byteSize t := by
  rw [bytes_of_text? h, Text.length_bytes]

@[simp] theorem output_span : (p.span output length).output = output := by cases p <;> rfl

@[simp] theorem length_span : (p.span output length).length = length := by cases p <;> rfl

theorem toSource_span (hle : output ≤ offset) (hlt : offset < output + length) :
    (p.span output length).toSource offset = p.origin (offset - output) := by
  cases p with
  | copied start stop =>
      simp only [span, Span.toSource, if_true, origin]
      omega
  | inserted text place => rfl

theorem toSource_span_behind (h : p.text? source = some t)
    (hle : output + Text.byteSize t ≤ offset) :
    (p.span output (Text.byteSize t)).toSource offset = p.sourceEnd := by
  cases p with
  | copied start stop =>
      obtain ⟨before, after, -, -, hstop⟩ := Text.slice?_eq_some_iff.mp h
      simp only [span, Span.toSource, if_true, sourceEnd]
      omega
  | inserted text place => rfl

/-! ### The places of the pieces -/

/-- Where the piece number `i` starts in the text made of `pieces`. -/
def startOf (source : Text) (pieces : List Piece) (i : Nat) : Nat :=
  ((pieces.take i).flatMap (bytes source)).length

/-- The byte at `offset` of the text made of `pieces` lies in the piece number `i`. -/
def LiesIn (source : Text) (pieces : List Piece) (offset i : Nat) : Prop :=
  startOf source pieces i ≤ offset ∧ offset < startOf source pieces (i + 1)

theorem startOf_length (source : Text) (pieces : List Piece) :
    startOf source pieces pieces.length = (pieces.flatMap (bytes source)).length := by
  rw [startOf, List.take_length]

/-- Pieces that follow do not move those in front. -/
theorem startOf_append (hi : i ≤ pieces.length) :
    startOf source (pieces ++ rest) i = startOf source pieces i := by
  rw [startOf, List.take_append_of_le_length hi, startOf]

theorem liesIn_append_iff (hi : i < pieces.length) :
    LiesIn source (pieces ++ rest) offset i ↔ LiesIn source pieces offset i := by
  rw [LiesIn, startOf_append (Nat.le_of_lt hi), startOf_append hi, LiesIn]

/-- The piece that is added last starts where the others end. -/
theorem liesIn_concat_iff :
    LiesIn source (pieces ++ [p]) offset pieces.length ↔
      startOf source pieces pieces.length ≤ offset ∧
        offset < startOf source pieces pieces.length + (p.bytes source).length := by
  have hstop : startOf source (pieces ++ [p]) (pieces.length + 1) =
      startOf source pieces pieces.length + (p.bytes source).length := by
    rw [startOf_length, startOf, List.take_of_length_le (by simp), List.flatMap_append,
      List.length_append, List.flatMap_singleton]
  rw [LiesIn, startOf_append (Nat.le_refl _), hstop]

theorem getElem?_concat_eq_some {q : Piece} (h : (pieces ++ [p])[i]? = some q) :
    (i < pieces.length ∧ pieces[i]? = some q) ∨ (i = pieces.length ∧ q = p) := by
  by_cases hi : i < pieces.length
  · rw [List.getElem?_append_left hi] at h
    exact Or.inl ⟨hi, h⟩
  · rw [List.getElem?_append_right (Nat.le_of_not_lt hi), List.getElem?_singleton] at h
    split at h
    case isTrue hzero => exact Or.inr ⟨by omega, (Option.some.inj h).symm⟩
    case isFalse => cases h

theorem startOf_mono (hle : i ≤ j) : startOf source pieces i ≤ startOf source pieces j := by
  obtain ⟨front, hfront⟩ := List.take_prefix_take_left (l := pieces) hle
  rw [startOf, startOf, ← hfront, List.flatMap_append, List.length_append]
  exact Nat.le_add_right _ _

/-- A byte lies in one piece only. -/
theorem LiesIn.unique (hi : LiesIn source pieces offset i) (hj : LiesIn source pieces offset j) :
    i = j := by
  have hle {i j : Nat} (hi : LiesIn source pieces offset i) (hj : LiesIn source pieces offset j) :
      i ≤ j := by
    by_contra hlt
    have hbehind : startOf source pieces (j + 1) ≤ startOf source pieces i :=
      startOf_mono (by omega)
    have := hi.1
    have := hj.2
    omega
  exact Nat.le_antisymm (hle hi hj) (hle hj hi)

/-- Every byte lies in a piece: the last one that starts at or before it. -/
theorem exists_liesIn (h : offset < (pieces.flatMap (bytes source)).length) :
    ∃ i, i < pieces.length ∧ LiesIn source pieces offset i := by
  let i := Nat.findGreatest (startOf source pieces · ≤ offset) pieces.length
  have hstart : startOf source pieces i ≤ offset :=
    Nat.findGreatest_spec (P := (startOf source pieces · ≤ offset)) (Nat.zero_le _)
      (Nat.zero_le _)
  have hlt : i < pieces.length := by
    refine Nat.lt_of_le_of_ne (Nat.findGreatest_le _) fun heq => ?_
    rw [heq, startOf_length] at hstart
    omega
  have hnext : ¬ startOf source pieces (i + 1) ≤ offset :=
    Nat.findGreatest_is_greatest (P := (startOf source pieces · ≤ offset)) (Nat.lt_succ_self i) hlt
  exact ⟨i, hlt, hstart, Nat.lt_of_not_le hnext⟩

/-! ### One piece after the other -/

/-- The last piece that has any text. -/
def lastWritten? (source : Text) (pieces : List Piece) : Option Piece :=
  (pieces.filter (·.bytes source ≠ [])).getLast?

theorem lastWritten?_concat (h : p.bytes source ≠ []) :
    lastWritten? source (pieces ++ [p]) = some p := by
  simp [lastWritten?, h]

theorem lastWritten?_concat_of_empty (h : p.bytes source = []) :
    lastWritten? source (pieces ++ [p]) = lastWritten? source pieces := by
  simp [lastWritten?, h]

/-- The text and the map are those of the pieces. -/
structure Records (source : Text) (pieces : List Piece) (text : Text) (m : SourceMap) : Prop where
  bytes_eq : text.bytes = pieces.flatMap (bytes source)
  tiles : SourceMap.Tiles 0 (Text.byteSize text) m.spans.toList
  inside : ∀ offset i p, pieces[i]? = some p → LiesIn source pieces offset i →
    m.toSource offset = p.origin (offset - startOf source pieces i)
  behind : ∀ offset, Text.byteSize text ≤ offset →
    m.toSource offset = (lastWritten? source pieces).elim offset sourceEnd

namespace Records

theorem of_nil (source : Text) : Records source [] [] .empty where
  bytes_eq := rfl
  tiles := rfl
  inside offset i p hp := by cases hp
  behind offset _ := SourceMap.toSource_empty offset

theorem byteSize_eq (h : Records source pieces text m) :
    Text.byteSize text = startOf source pieces pieces.length := by
  rw [startOf_length, ← h.bytes_eq, Text.length_bytes]

/-- One more piece appends its text and its span. -/
theorem append_piece (h : Records source pieces text m) (hp : p.text? source = some t) :
    Records source (pieces ++ [p]) (text ++ t)
      (m.push (p.span (Text.byteSize text) (Text.byteSize t))) where
  bytes_eq := by
    rw [Text.bytes_append, h.bytes_eq, List.flatMap_append, List.flatMap_singleton,
      bytes_of_text? hp]
  tiles := by
    have := h.tiles.push (s := p.span (Text.byteSize text) (Text.byteSize t)) output_span
    rwa [length_span, ← Text.byteSize_append] at this
  inside offset i q hq hin := by
    rcases getElem?_concat_eq_some hq with ⟨hi, hq⟩ | ⟨rfl, rfl⟩
    · -- A byte of the pieces in front leads back as before.
      rw [liesIn_append_iff hi] at hin
      have hlt : offset < Text.byteSize text := by
        rw [h.byteSize_eq]
        exact Nat.lt_of_lt_of_le hin.2 (startOf_mono hi)
      rw [startOf_append (Nat.le_of_lt hi), h.tiles.toSource_push_of_lt output_span hlt]
      exact h.inside offset i q hq hin
    · rw [liesIn_concat_iff, length_bytes_of_text? hp, ← h.byteSize_eq] at hin
      have hpos : 0 < Text.byteSize t := by omega
      rw [startOf_append (Nat.le_refl _), ← h.byteSize_eq,
        h.tiles.toSource_push_of_le output_span (by rwa [length_span]) hin.1,
        toSource_span hin.1 hin.2]
  behind offset hle := by
    rw [Text.byteSize_append] at hle
    by_cases ht : t = []
    · -- Nothing is written, so the last piece written is one in front.
      have hempty : p.bytes source = [] := by rw [bytes_of_text? hp, ht]; rfl
      rw [SourceMap.push_of_empty m (by rw [length_span, ht, Text.byteSize_nil]),
        lastWritten?_concat_of_empty hempty]
      exact h.behind offset (by omega)
    · have hpos := Text.byteSize_pos ht
      have hwritten : p.bytes source ≠ [] := by
        rw [← List.length_pos_iff, length_bytes_of_text? hp]
        exact hpos
      rw [h.tiles.toSource_push_of_le output_span (by rwa [length_span]) (by omega),
        toSource_span_behind hp hle, lastWritten?_concat hwritten, Option.elim_some]

/-- Any number of pieces are recorded if the first ones are. -/
theorem append_pieces {done : List Text} (h : Records source pieces done.reverse.flatten m)
    (houtput : output = Text.byteSize done.reverse.flatten) {joined : Text} {way : SourceMap}
    (hjoin : joinFrom? source done output m rest = some (joined, way)) :
    Records source (pieces ++ rest) joined way := by
  induction rest generalizing pieces done output m with
  | nil =>
      obtain ⟨rfl, rfl⟩ := Prod.mk.inj (Option.some.inj hjoin)
      rwa [List.append_nil]
  | cons p rest ih =>
      obtain ⟨t, hp, hjoin⟩ := Option.bind_eq_some_iff.mp hjoin
      have htext : (t :: done).reverse.flatten = done.reverse.flatten ++ t := by simp
      have hstep := h.append_piece hp
      rw [← htext, ← houtput] at hstep
      rw [List.append_cons]
      exact ih hstep (by rw [htext, Text.byteSize_append, houtput]) hjoin

end Records

/-! ### All pieces -/

theorem isSome_joinFrom?_iff {done : List Text} :
    (joinFrom? source done output m rest).isSome ↔ ∀ p ∈ rest, p.Fits source := by
  induction rest generalizing done output m with
  | nil => simp [joinFrom?]
  | cons p rest ih =>
      rw [List.forall_mem_cons, ← isSome_text?_iff, joinFrom?]
      cases p.text? source with
      | none => simp
      | some t => simpa using ih

/-- Pieces make a text exactly if each of them can be taken. -/
theorem isSome_join?_iff : (join? source pieces).isSome ↔ ∀ p ∈ pieces, p.Fits source :=
  isSome_joinFrom?_iff

theorem records_of_join? (h : join? source pieces = some (text, m)) :
    Records source pieces text m := by
  have hstart : Records source [] ([] : List Text).reverse.flatten .empty := Records.of_nil source
  exact hstart.append_pieces rfl h

/-- Pieces that fit make the text of their bytes in order, and the spans of its map lie without gaps
from its start to its end. Each of its bytes lies in one piece only and leads back to where that
piece has it from, or to where the piece was inserted; an offset past the end leads to the end of
the last piece written, and to itself if nothing is written at all. -/
theorem join?_leads_back (fits : ∀ p ∈ pieces, p.Fits source) :
    ∃ text m, join? source pieces = some (text, m) ∧
      text.bytes = pieces.flatMap (bytes source) ∧
      SourceMap.Tiles 0 (Text.byteSize text) m.spans.toList ∧
      (∀ offset < Text.byteSize text, ∃ i p, pieces[i]? = some p ∧
        LiesIn source pieces offset i ∧ (∀ j, LiesIn source pieces offset j → j = i) ∧
        m.toSource offset = p.origin (offset - startOf source pieces i)) ∧
      ∀ offset, Text.byteSize text ≤ offset →
        m.toSource offset = (lastWritten? source pieces).elim offset sourceEnd := by
  obtain ⟨⟨text, m⟩, hjoin⟩ := Option.isSome_iff_exists.mp (isSome_join?_iff.mpr fits)
  have hrecords := records_of_join? hjoin
  refine ⟨text, m, hjoin, hrecords.bytes_eq, hrecords.tiles, fun offset hlt => ?_,
    hrecords.behind⟩
  rw [hrecords.byteSize_eq, startOf_length] at hlt
  obtain ⟨i, hi, hin⟩ := exists_liesIn hlt
  have hp : pieces[i]? = some pieces[i] := List.getElem?_eq_getElem hi
  exact ⟨i, pieces[i], hp, hin, fun j hj => hj.unique hin, hrecords.inside offset i _ hp hin⟩

/-- Ranges out of order, one of them inside another, and pieces without text between them and at the
end. -/
theorem shuffledPieces_lead_back :
    let source := "ab é cd".toList
    let pieces := [copied 6 8, inserted [] 1, inserted "<é>".toList 3, copied 3 3, copied 0 5,
      copied 1 3, inserted [] 0, copied 8 8]
    (∀ p ∈ pieces, p.Fits source) ∧ ∃ text m, join? source pieces = some (text, m) ∧
      text = "cd<é>ab éb ".toList ∧ m.toSource 4 = 3 ∧ m.toSource 7 = 1 ∧ m.toSource 13 = 3 := by
  intro source pieces
  have fits : ∀ p ∈ pieces, p.Fits source := by decide
  obtain ⟨text, m, hjoin, -, -, hinside, hbehind⟩ := join?_leads_back fits
  have htext : (join? source pieces).map (·.1) = some "cd<é>ab éb ".toList := by decide
  rw [hjoin] at htext
  obtain rfl : text = "cd<é>ab éb ".toList := Option.some.inj htext
  refine ⟨fits, _, m, hjoin, rfl, ?_, ?_, hbehind 13 (by decide)⟩
  · obtain ⟨i, p, hp, -, hi, hsource⟩ := hinside 4 (by decide)
    obtain rfl : 2 = i := hi 2 ⟨by decide, by decide⟩
    obtain rfl : inserted "<é>".toList 3 = p := Option.some.inj hp
    exact hsource
  · obtain ⟨i, p, hp, -, hi, hsource⟩ := hinside 7 (by decide)
    obtain rfl : 4 = i := hi 4 ⟨by decide, by decide⟩
    obtain rfl : copied 0 5 = p := Option.some.inj hp
    exact hsource.trans (by decide)

end Piece

/-! ### Edit lists as pieces -/

namespace Edit

/-- The piece that the edit writes when it covers the source from `start` on. -/
def piece (start : Nat) : Edit → Piece
  | keep c => .copied start (start + c.utf8Size)
  | replace _ new => .inserted new start

/-- The pieces that edits write when they cover the source from `start` on. -/
def pieces (start : Nat) : List Edit → List Piece
  | [] => []
  | e :: es => e.piece start :: pieces (start + Text.byteSize e.before) es

theorem text?_piece (front rest : Text) (e : Edit) :
    (e.piece (Text.byteSize front)).text? (front ++ (e.before ++ rest)) = some e.after := by
  cases e with
  | keep c => exact Text.slice?_byteSize_append front [c] rest
  | replace old new => rfl

theorem span_piece (output source : Nat) (e : Edit) :
    (e.piece source).span output (Text.byteSize e.after) = e.span output source := by
  cases e with
  | keep c => rfl
  | replace old new => rfl

theorem joinFrom?_pieces (front : Text) (done : List Text) (n : Nat) (m : SourceMap)
    (edits : List Edit) :
    Piece.joinFrom? (front ++ source edits) done n m (pieces (Text.byteSize front) edits) =
      some (done.reverse.flatten ++ output edits,
        m.pushEdits n (Text.byteSize front) edits) := by
  induction edits generalizing front done n m with
  | nil => simp [pieces, Piece.joinFrom?, SourceMap.pushEdits]
  | cons e es ih =>
      rw [pieces, Piece.joinFrom?, source_cons, text?_piece, Option.bind_some]
      have h := ih (front ++ e.before) (e.after :: done) (n + Text.byteSize e.after)
        (m.push (e.span n (Text.byteSize front)))
      rw [List.append_assoc, Text.byteSize_append] at h
      simp only [span_piece]
      rw [h]
      simp [SourceMap.pushEdits]

/-- Edits write and record what their pieces do, one after the other. -/
theorem join?_pieces (edits : List Edit) :
    Piece.join? (source edits) (pieces 0 edits) = some (output edits, SourceMap.ofEdits edits) :=
  joinFrom?_pieces [] [] 0 .empty edits

/-- The map of an edit list has no gaps. -/
theorem tiles_ofEdits (edits : List Edit) :
    SourceMap.Tiles 0 (Text.byteSize (output edits)) (SourceMap.ofEdits edits).spans.toList :=
  (Piece.records_of_join? (join?_pieces edits)).tiles

end Edit

end ElementScript
