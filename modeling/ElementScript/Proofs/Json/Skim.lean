import ElementScript.Json.Skim
import ElementScript.Proofs.Json.Grammar

/-!
# Passing over a value

Every value is passed over, whatever is open around it: skimming its text ends after a value in the
same array or object (`skimFrom_value`). The machine does so part by part, and each part of the
grammar has its mode.
-/

namespace ElementScript

namespace JsonReader

open Json

variable {frames : List Frame}

theorem isSpace_iff {c : Char} : isSpace c = true ↔ c ∈ [' ', '\n', '\t', '\r'] := by
  simp [isSpace, or_assoc]

theorem isSpace_eq_false_of_isDigit {c : Char} (h : c.isDigit = true) : isSpace c = false := by
  rw [Bool.eq_false_iff]
  intro hspace
  rw [isSpace_iff] at hspace
  simp only [List.mem_cons, List.not_mem_nil, or_false] at hspace
  rcases hspace with rfl | rfl | rfl | rfl <;> cases h

theorem skimFrom_of_step {s s' : SkimState} {c : Char} {t : Text} (hdone : s.isDone c = false)
    (hstep : s.step c t = .ok s') : skimFrom s (c :: t) = skimFrom s' t := by
  rw [skimFrom, hdone, hstep]
  rfl

/-! ### Blanks -/

/-- Whether blanks make no difference in a state. -/
def SkimState.PassesBlanks (s : SkimState) : Prop :=
  ∀ c, isSpace c = true → ∀ t, s.isDone c = false ∧ s.step c t = .ok s

theorem skimFrom_blanks {s : SkimState} (hs : s.PassesBlanks) {b : Text} (hb : IsBlank b)
    (t : Text) : skimFrom s (b ++ t) = skimFrom s t := by
  induction b with
  | nil => rfl
  | cons c b ih =>
      obtain ⟨hc, hb⟩ := List.forall_mem_cons.mp hb
      obtain ⟨hdone, hstep⟩ := hs c (isSpace_iff.mpr hc) (b ++ t)
      rw [List.cons_append, skimFrom_of_step hdone hstep, ih hb]

theorem passesBlanks_before {mode : SkimMode} (h : mode ∈ [.value, .first, .key, .colon]) :
    (⟨frames, mode⟩ : SkimState).PassesBlanks := by
  intro c hc t
  simp only [List.mem_cons, List.not_mem_nil, or_false] at h
  rcases h with rfl | rfl | rfl | rfl <;> exact ⟨Bool.and_false _, if_pos hc⟩

theorem passesBlanks_after (frame : Frame) :
    (⟨frame :: frames, .after⟩ : SkimState).PassesBlanks := by
  intro c hc t
  refine ⟨rfl, ?_⟩
  rw [isSpace_iff] at hc
  simp only [List.mem_cons, List.not_mem_nil, or_false] at hc
  rcases hc with rfl | rfl | rfl | rfl <;> cases frame <;> rfl

/-! ### Strings -/

theorem hexValue?_of_isHexDigit {n : Nat} {c : Char} (h : IsHexDigit n c) :
    hexValue? c = some n := by
  have hdigits : ∀ n < 16, hexValue? (Nat.digitChar n) = some n ∧
      hexValue? (Nat.digitChar n).toUpper = some n := by decide
  obtain ⟨hn, rfl | rfl⟩ := h
  · exact (hdigits n hn).1
  · exact (hdigits n hn).2

theorem map_hexValue?_of_isHexFour {n : Nat} {t : Text} (h : IsHexFour n t) :
    t.map hexValue? =
      [n / 4096, n / 256 % 16, n / 16 % 16, n % 16].map some := by
  unfold IsHexFour at h
  generalize [n / 4096, n / 256 % 16, n / 16 % 16, n % 16] = values at h
  induction h with
  | nil => rfl
  | cons hdigit _ ih =>
      rw [List.map_cons, List.map_cons, hexValue?_of_isHexDigit hdigit, ih]

theorem length_of_isHexFour {n : Nat} {t : Text} (h : IsHexFour n t) : t.length = 4 :=
  h.length_eq.symm

theorem length_le_byteSize (t : Text) : t.length ≤ Text.byteSize t := by
  induction t with
  | nil => exact Nat.le_refl _
  | cons c t ih =>
      rw [List.length_cons, Text.byteSize_cons]
      have := c.utf8Size_pos
      omega

section Strings

variable {isKey : Bool}

/-- A value does not end in a string. -/
theorem skimFrom_inString {letter : Bool} {hex : Nat} {c : Char} {t : Text} {s : SkimState}
    (h : (⟨frames, .string isKey letter hex⟩ : SkimState).inString isKey letter hex c t = .ok s) :
    skimFrom ⟨frames, .string isKey letter hex⟩ (c :: t) = skimFrom s t :=
  skimFrom_of_step (Bool.and_false _) h

theorem skimFrom_hexDigits {digits : Text} (h : ∀ c ∈ digits, (hexValue? c).isSome) (t : Text) :
    skimFrom ⟨frames, .string isKey false digits.length⟩ (digits ++ t) =
      skimFrom ⟨frames, .string isKey false 0⟩ t := by
  induction digits with
  | nil => rfl
  | cons c digits ih =>
      obtain ⟨hc, hdigits⟩ := List.forall_mem_cons.mp h
      rw [List.cons_append, ← ih hdigits]
      exact skimFrom_inString (if_pos hc)

/-- A backslash, the letter `u` and four digits are passed over, whatever they write. -/
theorem skimFrom_unicodeEscape {n : Nat} {digits : Text} (h : IsHexFour n digits) (t : Text) :
    skimFrom ⟨frames, .string isKey false 0⟩ ('\\' :: 'u' :: (digits ++ t)) =
      skimFrom ⟨frames, .string isKey false 0⟩ t := by
  have hlength := length_of_isHexFour h
  have htake : (digits ++ t).take 4 = digits := by rw [← hlength, List.take_left]
  have hsize : ¬ Text.byteSize ((digits ++ t).take 4) < 4 := by
    rw [htake, ← hlength]
    exact Nat.not_lt.mpr (length_le_byteSize digits)
  have hvalues : ∀ c ∈ digits, (hexValue? c).isSome := by
    intro c hc
    have hmem := List.mem_map_of_mem (f := hexValue?) hc
    rw [map_hexValue?_of_isHexFour h] at hmem
    obtain ⟨k, -, hk⟩ := List.mem_map.mp hmem
    rw [← hk]
    rfl
  have hletter : (⟨frames, .string isKey true 0⟩ : SkimState).inString isKey true 0 'u'
      (digits ++ t) = .ok ⟨frames, .string isKey false 4⟩ := by
    simp only [SkimState.inString, if_neg hsize, if_true]
  rw [skimFrom_inString (show _ = Except.ok ⟨frames, .string isKey true 0⟩ from rfl),
    skimFrom_inString hletter, ← hlength]
  exact skimFrom_hexDigits hvalues t

theorem skimFrom_character {c : Char} {u : Text} (h : CharText c u) (t : Text) :
    skimFrom ⟨frames, .string isKey false 0⟩ (u ++ t) =
      skimFrom ⟨frames, .string isKey false 0⟩ t := by
  cases h with
  | plain hquote hslash hcontrol =>
      refine skimFrom_inString ?_
      simp [SkimState.inString, hquote, hslash, Nat.not_lt.mpr hcontrol]
  | short hmem =>
      rename_i letter
      have hletter : letter ∈ shortEscapes.map Prod.fst := List.mem_map_of_mem hmem
      change letter ∈ ['\"', '\\', '/', 'b', 'f', 'n', 'r', 't'] at hletter
      have hne : letter ≠ 'u' := by
        rintro rfl
        exact absurd hletter (by decide)
      rw [List.cons_append, List.cons_append, List.nil_append,
        skimFrom_inString (show _ = Except.ok ⟨frames, .string isKey true 0⟩ from rfl)]
      refine skimFrom_inString ?_
      simp only [SkimState.inString, if_neg hne, if_pos hletter, if_true]
  | unicode hdigits => exact skimFrom_unicodeEscape hdigits t
  | pair _ hhigh hlow =>
      rw [List.cons_append, List.cons_append, List.append_assoc, skimFrom_unicodeEscape hhigh]
      exact skimFrom_unicodeEscape hlow t

/-- A string is passed over up to its closing quote. -/
theorem skimFrom_string {s u : Text} (h : StringText s u) (t : Text) :
    skimFrom ⟨frames, .string isKey false 0⟩ (u ++ '\"' :: t) =
      skimFrom ⟨frames, if isKey then .colon else .after⟩ t := by
  induction h with
  | nil => exact skimFrom_inString rfl
  | cons hchar _ ih => rw [List.append_assoc, skimFrom_character hchar, ih]

end Strings

/-! ### Numbers -/

/-- How a number goes on with a text; none if it does not. -/
def NumberPart.run? (part : NumberPart) (t : Text) : Option NumberPart :=
  t.foldlM (fun part c => part.step? c) part

theorem NumberPart.run?_append {part next : NumberPart} {t : Text} (h : part.run? t = some next)
    (u : Text) : part.run? (t ++ u) = next.run? u := by
  rw [run?, List.foldlM_append]
  exact congrArg (Option.bind · fun part => part.run? u) h

theorem NumberPart.run?_digits {part : NumberPart} (h : ∀ c, c.isDigit → part.step? c = some part)
    {ds : Text} (hds : ∀ c ∈ ds, c.isDigit) : part.run? ds = some part := by
  induction ds with
  | nil => rfl
  | cons c ds ih =>
      obtain ⟨hc, hds⟩ := List.forall_mem_cons.mp hds
      rw [run?, List.foldlM_cons, h c hc]
      exact ih hds

theorem skimFrom_number {part next : NumberPart} {t : Text} (h : part.run? t = some next)
    (u : Text) : skimFrom ⟨frames, .number part⟩ (t ++ u) = skimFrom ⟨frames, .number next⟩ u := by
  induction t generalizing part with
  | nil => rw [Option.some.inj h, List.nil_append]
  | cons c t ih =>
      obtain ⟨inner, hstep, hrun⟩ := Option.bind_eq_some_iff.mp h
      change part.step? c = some inner at hstep
      rw [List.cons_append, ← ih hrun]
      refine skimFrom_of_step ?_ ?_
      · simp [SkimState.isDone, hstep]
      · simp [SkimState.step, hstep]

/-- A number ends where something follows that can come after a value. -/
theorem skimFrom_numberEnd {part : NumberPart} (hend : part.isEnd = true) {t : Text}
    (ht : Follows t) :
    skimFrom ⟨frames, .number part⟩ t = skimFrom ⟨frames, .after⟩ t := by
  cases t with
  | nil =>
      rw [skimFrom, skimFrom, SkimState.finish, SkimState.finish]
      simp only [hend, if_true]
  | cons c t =>
      obtain ⟨hdigit, hpoint, hsmall, hlarge⟩ := of_mem_followers (ht c rfl)
      have hc : part.step? c = none ∧ c.isDigit = false := by
        refine ⟨?_, hdigit⟩
        cases part <;> simp_all [NumberPart.isEnd, NumberPart.step?]
      cases frames with
      | nil => simp [skimFrom, SkimState.isDone, hend, hc]
      | cons frame frames =>
          have hstep : (⟨frame :: frames, .number part⟩ : SkimState).step c t =
              (⟨frame :: frames, .after⟩ : SkimState).goOn c := by
            simp only [SkimState.step, hc, hend, Bool.and_false, Bool.not_false, Bool.and_true,
              if_true]
            cases frame <;> rfl
          rw [skimFrom, skimFrom, hstep]
          rfl

theorem begin_digit {c : Char} (hc : c.isDigit = true) :
    ∃ part, NumberPart.step? c .sign = some part ∧ (part = .zero ∨ part = .whole) ∧
      ∀ s : SkimState, s.begin c = .ok { s with mode := .number part } := by
  by_cases hzero : c = '0'
  · subst hzero
    exact ⟨.zero, rfl, Or.inl rfl, fun _ => rfl⟩
  · refine ⟨.whole, by simp [NumberPart.step?, hzero, hc], Or.inr rfl, fun s => ?_⟩
    unfold SkimState.begin
    split
    all_goals first | exact absurd rfl hzero | exact absurd hc (by decide) | exact if_pos hc

theorem run?_whole {t : Text} (h : IsWhole t) :
    ∃ part, NumberPart.run? .sign t = some part ∧ (part = .zero ∨ part = .whole) := by
  obtain ⟨⟨hne, hdigits⟩, hzero⟩ := h
  obtain ⟨c, ds, rfl⟩ := List.exists_cons_of_ne_nil hne
  obtain ⟨hc, hds⟩ := List.forall_mem_cons.mp hdigits
  obtain ⟨part, hstep, hpart, -⟩ := begin_digit hc
  have hrun : NumberPart.run? .sign (c :: ds) = part.run? ds := by
    rw [NumberPart.run?, List.foldlM_cons, hstep]
    rfl
  refine ⟨part, ?_, hpart⟩
  rw [hrun]
  rcases hpart with rfl | rfl
  · by_cases h0 : c = '0'
    · obtain rfl : ds = [] := by simpa [h0] using hzero (by rw [h0]; rfl)
      rfl
    · simp [NumberPart.step?, h0, hc] at hstep
  · exact NumberPart.run?_digits (fun c hc => by simp [NumberPart.step?, hc]) hds

/-- One digit or more, after which the number can go on with digits. -/
theorem run?_isDigits {part next : NumberPart} {ds : Text} (h : IsDigits ds)
    (hfirst : ∀ c, c.isDigit → part.step? c = some next)
    (hnext : ∀ c, c.isDigit → next.step? c = some next) : part.run? ds = some next := by
  obtain ⟨hne, hdigits⟩ := h
  obtain ⟨c, ds, rfl⟩ := List.exists_cons_of_ne_nil hne
  obtain ⟨hc, hds⟩ := List.forall_mem_cons.mp hdigits
  rw [NumberPart.run?, List.foldlM_cons, hfirst c hc]
  exact NumberPart.run?_digits hnext hds

theorem run?_fraction {part : NumberPart} (hpart : part = .zero ∨ part = .whole) {t : Text}
    (h : IsFraction t) :
    ∃ next, part.run? t = some next ∧ (next = .zero ∨ next = .whole ∨ next = .fraction) := by
  cases h with
  | nil => exact ⟨part, rfl, hpart.imp_right Or.inl⟩
  | digits hds =>
      have hpoint : part.step? '.' = some .point := by rcases hpart with rfl | rfl <;> rfl
      refine ⟨.fraction, ?_, Or.inr (Or.inr rfl)⟩
      rw [NumberPart.run?, List.foldlM_cons, hpoint]
      exact run?_isDigits hds (fun c hc => by simp [NumberPart.step?, hc])
        (fun c hc => by simp [NumberPart.step?, hc])

theorem run?_exponent {part : NumberPart}
    (hpart : part = .zero ∨ part = .whole ∨ part = .fraction) {t : Text} (h : IsExponent t) :
    ∃ next, part.run? t = some next ∧ next.isEnd = true := by
  cases h with
  | nil => exact ⟨part, rfl, by rcases hpart with rfl | rfl | rfl <;> rfl⟩
  | digits hletter hsign hds =>
      rename_i letter sign ds
      have hstart : part.step? letter = some .letter := by
        simp only [List.mem_cons, List.not_mem_nil, or_false] at hletter
        rcases hletter with rfl | rfl <;> rcases hpart with rfl | rfl | rfl <;> rfl
      have hexponent : ∀ c, c.isDigit → NumberPart.step? c .exponent = some .exponent :=
        fun c hc => by simp [NumberPart.step?, hc]
      have hdigits : NumberPart.run? .letter (sign ++ ds) = some .exponent := by
        have hsigned : NumberPart.run? .exponentSign ds = some .exponent :=
          run?_isDigits hds (fun c hc => by simp [NumberPart.step?, hc]) hexponent
        simp only [List.mem_cons, List.not_mem_nil, or_false] at hsign
        rcases hsign with rfl | rfl | rfl
        · exact run?_isDigits hds (fun c hc => by simp [NumberPart.step?, hc]) hexponent
        · exact hsigned
        · exact hsigned
      refine ⟨.exponent, ?_, rfl⟩
      rw [NumberPart.run?, List.foldlM_cons, hstart]
      exact hdigits

/-- A number is passed over from its first character on. -/
theorem run?_of_isNumber {t : Text} (h : IsNumber t) :
    ∃ c u part next, t = c :: u ∧ (isSpace c = false ∧ c ≠ ']') ∧ part.run? u = some next ∧
      next.isEnd = true ∧ ∀ s : SkimState, s.begin c = .ok { s with mode := .number part } := by
  obtain ⟨hsign, hwhole, hfraction, hexponent⟩ := h
  rename_i sign whole fraction exponent
  obtain ⟨part₁, hrun₁, hpart₁⟩ := run?_whole hwhole
  obtain ⟨part₂, hrun₂, hpart₂⟩ := run?_fraction hpart₁ hfraction
  obtain ⟨part₃, hrun₃, hend⟩ := run?_exponent hpart₂ hexponent
  have hrun : NumberPart.run? .sign (whole ++ (fraction ++ exponent)) = some part₃ := by
    rw [NumberPart.run?_append hrun₁, NumberPart.run?_append hrun₂, hrun₃]
  simp only [List.mem_cons, List.not_mem_nil, or_false] at hsign
  rcases hsign with rfl | rfl
  · obtain ⟨⟨hne, hdigits⟩, -⟩ := hwhole
    obtain ⟨c, ds, rfl⟩ := List.exists_cons_of_ne_nil hne
    have hc : c.isDigit = true := hdigits c List.mem_cons_self
    obtain ⟨part, hstep, -, hbegin⟩ := begin_digit hc
    have hstart : isSpace c = false ∧ c ≠ ']' :=
      ⟨isSpace_eq_false_of_isDigit hc, by rintro rfl; cases hc⟩
    refine ⟨c, ds ++ (fraction ++ exponent), part, part₃, rfl, hstart, ?_, hend, hbegin⟩
    rw [List.cons_append, NumberPart.run?, List.foldlM_cons, hstep] at hrun
    exact hrun
  · exact ⟨'-', _, .sign, part₃, rfl, by decide, hrun, hend, fun _ => rfl⟩

/-! ### Values -/

/-- The modes in which a value can begin. -/
def BeginsValue (frames : List Frame) (mode : SkimMode) : Prop :=
  mode = .value ∨ mode = .first ∧ ∃ outer, frames = .array :: outer

theorem BeginsValue.mem_before {mode : SkimMode} (h : BeginsValue frames mode) :
    mode ∈ [.value, .first, .key, .colon] := by
  rcases h with rfl | ⟨rfl, -⟩ <;> simp

/-- The first character of a value decides how it goes on; blanks in front of it do not matter. -/
theorem BeginsValue.skimFrom_begin {mode : SkimMode} (h : BeginsValue frames mode) {b : Text}
    (hb : IsBlank b) {c : Char} (hblank : isSpace c = false) (hclose : c ≠ ']') (next : SkimState)
    (hbegin : ∀ mode, (⟨frames, mode⟩ : SkimState).begin c = .ok next) (u t : Text) :
    skimFrom ⟨frames, mode⟩ (b ++ c :: u ++ t) = skimFrom next (u ++ t) := by
  rw [List.append_assoc, skimFrom_blanks (passesBlanks_before h.mem_before) hb, List.cons_append]
  rcases h with rfl | ⟨rfl, outer, rfl⟩
  · refine skimFrom_of_step (Bool.and_false _) ?_
    rw [SkimState.step, hblank, if_neg Bool.false_ne_true, hbegin]
  · refine skimFrom_of_step (Bool.and_false _) ?_
    rw [SkimState.step, hblank, if_neg Bool.false_ne_true, ← hbegin .first]
    unfold SkimState.openUp
    split <;> simp_all

theorem skimFrom_word {word : Text} (hne : word ≠ []) (t : Text) :
    skimFrom ⟨frames, .word word⟩ (word ++ t) = skimFrom ⟨frames, .after⟩ t := by
  induction word with
  | nil => exact absurd rfl hne
  | cons c word ih =>
      cases word with
      | nil => exact skimFrom_of_step (Bool.and_false _) (if_pos rfl)
      | cons d word =>
          rw [← ih (List.cons_ne_nil _ _)]
          exact skimFrom_of_step (Bool.and_false _) (if_pos rfl)

mutual

/-- A value is passed over, up to what follows it. -/
theorem skimFrom_value {v : Json} {t : Text} (h : v.Writes t) (frames : List Frame)
    {mode : SkimMode} (hmode : BeginsValue frames mode) {rest : Text} (hrest : Follows rest) :
    skimFrom ⟨frames, mode⟩ (t ++ rest) = skimFrom ⟨frames, .after⟩ rest := by
  cases h with
  | null hb =>
      rw [hmode.skimFrom_begin hb rfl (by decide) ⟨frames, .word ['u', 'l', 'l']⟩ fun _ => rfl]
      exact skimFrom_word (by decide) rest
  | true hb =>
      rw [hmode.skimFrom_begin hb rfl (by decide) ⟨frames, .word ['r', 'u', 'e']⟩ fun _ => rfl]
      exact skimFrom_word (by decide) rest
  | false hb =>
      rw [hmode.skimFrom_begin hb rfl (by decide) ⟨frames, .word ['a', 'l', 's', 'e']⟩ fun _ => rfl]
      exact skimFrom_word (by decide) rest
  | number hb hnumber =>
      obtain ⟨c, u, part, next, rfl, hstart, hrun, hend, hbegin⟩ := run?_of_isNumber hnumber
      rw [hmode.skimFrom_begin hb hstart.1 hstart.2 ⟨frames, .number part⟩ fun _ => hbegin _,
        skimFrom_number hrun]
      exact skimFrom_numberEnd hend hrest
  | text hb hstring =>
      rw [hmode.skimFrom_begin hb rfl (by decide) ⟨frames, .string false false 0⟩ fun _ => rfl,
        List.append_assoc]
      exact skimFrom_string hstring rest
  | array hb hitems =>
      rw [hmode.skimFrom_begin hb rfl (by decide) ⟨.array :: frames, .first⟩ fun _ => rfl,
        List.append_assoc]
      exact skimFrom_items hitems frames (Or.inl rfl) rest
  | object hb hmembers =>
      rw [hmode.skimFrom_begin hb rfl (by decide) ⟨.object :: frames, .first⟩ fun _ => rfl,
        List.append_assoc]
      exact skimFrom_members hmembers frames (Or.inl rfl) rest

/-- Items are passed over up to the bracket that closes them. -/
theorem skimFrom_items {items : List Json} {t : Text} (h : WritesItems items t)
    (frames : List Frame) {mode : SkimMode} (hmode : mode = .first ∨ mode = .value ∧ items ≠ [])
    (rest : Text) :
    skimFrom ⟨.array :: frames, mode⟩ (t ++ ']' :: rest) = skimFrom ⟨frames, .after⟩ rest := by
  have hbegins : BeginsValue (.array :: frames) mode :=
    hmode.symm.imp And.left fun hfirst => ⟨hfirst, frames, rfl⟩
  cases h with
  | nil hb =>
      obtain rfl := hmode.resolve_right (fun hvalue => hvalue.2 rfl)
      rw [skimFrom_blanks (passesBlanks_before (by simp)) hb]
      exact skimFrom_of_step rfl rfl
  | last hv hb =>
      rw [List.append_assoc, skimFrom_value hv _ hbegins (follows_bracket.blank_append hb),
        skimFrom_blanks (passesBlanks_after _) hb]
      exact skimFrom_of_step rfl rfl
  | cons hv hb hitems =>
      rw [List.append_assoc, List.append_assoc, List.cons_append,
        skimFrom_value hv _ hbegins (follows_comma.blank_append hb),
        skimFrom_blanks (passesBlanks_after _) hb,
        ← skimFrom_items hitems frames (Or.inr ⟨rfl, List.cons_ne_nil _ _⟩) rest]
      exact skimFrom_of_step rfl rfl

/-- A member is passed over, up to what follows it. -/
theorem skimFrom_member {m : Text × Json} {t : Text} (h : WritesMember m t)
    (frames : List Frame) {mode : SkimMode} (hmode : mode = .first ∨ mode = .key)
    {rest : Text} (hrest : Follows rest) :
    skimFrom ⟨.object :: frames, mode⟩ (t ++ rest) = skimFrom ⟨.object :: frames, .after⟩ rest := by
  cases h with
  | mk hb hkey hb' hv =>
      rename_i u
      have hquote (u : Text) : skimFrom ⟨.object :: frames, mode⟩ ('\"' :: u) =
          skimFrom ⟨.object :: frames, .string true false 0⟩ u := by
        rcases hmode with rfl | rfl <;> exact skimFrom_of_step rfl rfl
      have hcolon (u : Text) : skimFrom ⟨.object :: frames, .colon⟩ (':' :: u) =
          skimFrom ⟨.object :: frames, .value⟩ u := skimFrom_of_step rfl rfl
      have hbefore : mode ∈ [.value, .first, .key, .colon] := by
        rcases hmode with rfl | rfl <;> simp
      rw [List.append_assoc, skimFrom_blanks (passesBlanks_before hbefore) hb, List.cons_append,
        hquote, List.append_assoc, List.cons_append, skimFrom_string hkey, if_pos rfl,
        List.append_assoc, skimFrom_blanks (passesBlanks_before (by simp)) hb', List.cons_append,
        hcolon]
      exact skimFrom_value hv (.object :: frames) (Or.inl rfl) hrest

/-- Members are passed over up to the brace that closes them. -/
theorem skimFrom_members {members : List (Text × Json)} {t : Text} (h : WritesMembers members t)
    (frames : List Frame) {mode : SkimMode} (hmode : mode = .first ∨ mode = .key ∧ members ≠ [])
    (rest : Text) :
    skimFrom ⟨.object :: frames, mode⟩ (t ++ '\x7d' :: rest) = skimFrom ⟨frames, .after⟩ rest := by
  have hbegins := hmode.imp_right And.left
  cases h with
  | nil hb =>
      obtain rfl := hmode.resolve_right (fun hkey => hkey.2 rfl)
      rw [skimFrom_blanks (passesBlanks_before (by simp)) hb]
      exact skimFrom_of_step rfl rfl
  | last hm hb =>
      rw [List.append_assoc, skimFrom_member hm frames hbegins (follows_brace.blank_append hb),
        skimFrom_blanks (passesBlanks_after _) hb]
      exact skimFrom_of_step rfl rfl
  | cons hm hb hmembers =>
      rw [List.append_assoc, List.append_assoc, List.cons_append,
        skimFrom_member hm frames hbegins (follows_comma.blank_append hb),
        skimFrom_blanks (passesBlanks_after _) hb,
        ← skimFrom_members hmembers frames (Or.inr ⟨rfl, List.cons_ne_nil _ _⟩) rest]
      exact skimFrom_of_step rfl rfl

end

/-- A value on its own is passed over, and the text after it is left. -/
theorem skim_value {v : Json} {t : Text} (h : v.Writes t) {rest : Text} (hrest : Follows rest) :
    skim (t ++ rest) = .ok rest := by
  rw [skim, skimFrom_value h [] (Or.inl rfl) hrest]
  cases rest <;> rfl

end JsonReader

end ElementScript
