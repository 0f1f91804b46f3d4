import ElementScript.Json.Reader
import ElementScript.Proofs.Json.Skim

/-!
# Reading values

A reader reads a value as something if it does so on every text that writes the value, wherever the
value stands in a document (`Reads`). Texts are read from strings, however they are escaped, natural
numbers from their digits, and lists from arrays, item by item.
-/

namespace ElementScript

namespace JsonReader

open Json

/-- Whether a reader reads a value as `a`: it leaves what follows the value. -/
def Reads {α : Type} (reader : JsonReader α) (v : Json) (a : α) : Prop :=
  ∀ t, v.Writes t → ∀ rest, Follows rest → reader (t ++ rest) = .ok (a, rest)

/-- Blanks are skipped up to what is none. -/
theorem skipSpace_append {b : Text} (hb : IsBlank b) {c : Char} (hc : isSpace c = false)
    (t : Text) : skipSpace (b ++ c :: t) = c :: t := by
  rw [skipSpace, List.dropWhile_append_of_pos fun d hd => isSpace_iff.mpr (hb d hd),
    List.dropWhile_cons_of_neg (by rw [hc]; exact Bool.false_ne_true)]

/-! ### Strings -/

theorem stringFrom_skip (passed u t : Text) :
    stringFrom u.length passed (u ++ t) = stringFrom 0 passed t := by
  induction u with
  | nil => rfl
  | cons c u ih => exact ih

theorem stringFrom_escape {passed u t : Text} {c : Char}
    (h : escaped (u ++ t) = .ok (c, u.length)) :
    stringFrom 0 passed ('\\' :: (u ++ t)) = stringFrom 0 (c :: passed) t := by
  rw [stringFrom, if_neg (by decide), if_pos rfl, h]
  exact stringFrom_skip _ u t

theorem hexFour_append {n : Nat} {digits : Text} (h : IsHexFour n digits) (t : Text) :
    hexFour (digits ++ t) = .ok n := by
  have htake : (digits ++ t).take 4 = digits := by rw [← length_of_isHexFour h, List.take_left]
  have hsize : ¬ Text.byteSize digits < 4 := by
    rw [← length_of_isHexFour h]
    exact Nat.not_lt.mpr (length_le_byteSize digits)
  rw [hexFour, htake, if_neg hsize, map_hexValue?_of_isHexFour h]
  exact congrArg Except.ok (show _ = n by omega)

theorem unicodeEscape_single {c : Char} {digits : Text} (h : IsHexFour c.toNat digits) (t : Text) :
    unicodeEscape (digits ++ t) = .ok (c, 4) := by
  have hrange : c.toNat < 0xD800 ∨ 0xDFFF < c.toNat := by
    rcases c.valid with hlow | hhigh
    · exact Or.inl hlow
    · exact Or.inr hhigh.1
  rw [unicodeEscape, hexFour_append h]
  change (if c.toNat < 0xD800 ∨ 0xDFFF < c.toNat then _ else _) = _
  rw [if_pos hrange, Char.ofNat_toNat]
  rfl

/-- Two escapes write one character, if the first is the high half of a pair and the second the low
half. -/
theorem unicodeEscape_halves {n m : Nat} {high low : Text} (hhigh : IsHexFour n high)
    (hlow : IsHexFour m low) (hn : 0xD800 ≤ n ∧ n < 0xDC00) (hm : 0xDC00 ≤ m ∧ m ≤ 0xDFFF)
    (t : Text) :
    unicodeEscape (high ++ '\\' :: 'u' :: (low ++ t)) =
      .ok (Char.ofNat (0x10000 + 1024 * (n - 0xD800) + (m - 0xDC00)), 10) := by
  have hdrop (u : Text) : (high ++ u).drop 4 = u := by
    rw [← length_of_isHexFour hhigh, List.drop_left]
  rw [unicodeEscape, hexFour_append hhigh]
  change (if n < 0xD800 ∨ 0xDFFF < n then _ else if 0xDC00 ≤ n then _ else _) = _
  rw [if_neg (by omega), if_neg (by omega), hdrop]
  change (hexFour (low ++ t) >>= _) = _
  rw [hexFour_append hlow]
  exact if_pos hm

theorem unicodeEscape_pair {c : Char} {high low : Text} (hc : 0x10000 ≤ c.toNat)
    (hhigh : IsHexFour (0xD800 + (c.toNat - 0x10000) / 1024) high)
    (hlow : IsHexFour (0xDC00 + (c.toNat - 0x10000) % 1024) low) (t : Text) :
    unicodeEscape (high ++ '\\' :: 'u' :: (low ++ t)) = .ok (c, 10) := by
  have hlt : c.toNat < 0x110000 := by
    rcases c.valid with hlow | hhigh
    · exact Nat.lt_trans hlow (by decide)
    · exact hhigh.2
  have hvalue : 0x10000 + 1024 * (0xD800 + (c.toNat - 0x10000) / 1024 - 0xD800) +
      (0xDC00 + (c.toNat - 0x10000) % 1024 - 0xDC00) = c.toNat := by omega
  rw [unicodeEscape_halves hhigh hlow (by omega) (by omega), hvalue, Char.ofNat_toNat]

theorem stringFrom_character {c : Char} {u : Text} (h : CharText c u) (passed t : Text) :
    stringFrom 0 passed (u ++ t) = stringFrom 0 (c :: passed) t := by
  cases h with
  | plain hquote hslash hcontrol =>
      rw [List.singleton_append, stringFrom, if_neg hquote, if_neg hslash,
        if_neg (Nat.not_lt.mpr hcontrol)]
  | short hmem =>
      have hletters : ∀ e ∈ shortEscapes, ∀ t, escaped (e.1 :: t) = .ok (e.2, 1) := by
        simp [shortEscapes, escaped]
      exact stringFrom_escape (u := [_]) (hletters _ hmem t)
  | unicode hdigits =>
      rename_i digits
      refine stringFrom_escape (u := 'u' :: digits) ?_
      have hlength := length_of_isHexFour hdigits
      rw [List.cons_append, escaped, unicodeEscape_single hdigits, List.length_cons, hlength]
      rfl
  | pair hc hhigh hlow =>
      rename_i high low
      have hlength : ('u' :: (high ++ '\\' :: 'u' :: low)).length = 11 := by
        simp [length_of_isHexFour hhigh, length_of_isHexFour hlow]
      refine stringFrom_escape (u := 'u' :: (high ++ '\\' :: 'u' :: low)) ?_
      rw [List.cons_append, List.append_assoc, List.cons_append, List.cons_append, escaped,
        unicodeEscape_pair hc hhigh hlow, hlength]
      rfl

/-- A string is read as the text that it writes. -/
theorem stringFrom_text {s u : Text} (h : StringText s u) (passed t : Text) :
    stringFrom 0 passed (u ++ '\"' :: t) = .ok (passed.reverse ++ s, t) := by
  induction h generalizing passed with
  | nil => rw [List.append_nil]; rfl
  | cons hchar _ ih =>
      rw [List.append_assoc, stringFrom_character hchar, ih, List.reverse_cons, List.append_assoc]
      rfl

theorem string_text {s u : Text} (h : StringText s u) (t : Text) :
    string (u ++ '\"' :: t) = .ok (s, t) := stringFrom_text h [] t

theorem text_reads (s : Text) : Reads text (.text s) s := by
  intro t ht rest _
  cases ht with
  | text hb hstring =>
      rw [text, List.append_assoc, List.cons_append, skipSpace_append hb rfl, List.append_assoc]
      exact string_text hstring rest

/-! ### Numbers -/

theorem natOf_toDigits (n : Nat) : Numeral.natOf (Nat.toDigits 10 n) = n :=
  Nat.ofDigitChars_ten_toDigits

theorem le_foldl_digits (ds : Text) (m : Nat) :
    m ≤ ds.foldl (fun n c => 10 * n + (c.toNat - 48)) m := by
  induction ds generalizing m with
  | nil => exact Nat.le_refl _
  | cons c ds ih => exact Nat.le_trans (by omega) (ih (10 * m + (c.toNat - 48)))

/-- Digits that write a number of 64 bits are all taken in. -/
theorem absorb_eq {ds : Text} {m : Nat}
    (h : ds.foldl (fun n c => 10 * n + (c.toNat - 48)) m < UInt64.size) :
    Numeral.absorb m ds = (ds.foldl (fun n c => 10 * n + (c.toNat - 48)) m, 0) := by
  induction ds generalizing m with
  | nil => rfl
  | cons c ds ih =>
      rw [Numeral.absorb, if_pos (Nat.lt_of_le_of_lt (le_foldl_digits ds _) h)]
      exact ih h

theorem roundBinary_le {n : Nat} (h : n < Nat.pow 2 64) : roundBinary 53 n ≤ Nat.pow 2 65 := by
  have hlog : n.log2 < 64 := by
    by_cases hn : n = 0
    · subst hn
      decide
    · exact (Nat.log2_lt hn).mpr h
  have hunit : Nat.pow 2 (n.log2 + 1 - 53) ≤ Nat.pow 2 12 :=
    Nat.pow_le_pow_right (by decide) (by omega)
  have hpos : 0 < Nat.pow 2 (n.log2 + 1 - 53) := Nat.pow_pos (by decide)
  rw [roundBinary]
  generalize Nat.pow 2 (n.log2 + 1 - 53) = unit at hunit hpos
  have hnear := (roundDiv_nearest n hpos).2
  have : Nat.pow 2 64 + Nat.pow 2 12 ≤ Nat.pow 2 65 := by decide
  omega

theorem isTooLarge_eq_false {ds : Text} (h : Numeral.natOf ds < UInt64.size) :
    (⟨false, ds, none, none⟩ : Numeral).isTooLarge = false := by
  have habsorb := absorb_eq (m := 0) h
  have happrox : (⟨false, ds, none, none⟩ : Numeral).approximation = (Numeral.natOf ds, 0) := by
    rw [Numeral.approximation, habsorb]
    rfl
  have hone : roundBinary 53 (Nat.pow 10 0) = 1 := by decide
  have hle := roundBinary_le h
  have hlarge : ¬ Numeral.tooLarge ≤ roundBinary 53 (Numeral.natOf ds) * 1 := by
    have : Nat.pow 2 65 < Numeral.tooLarge := by decide +kernel
    omega
  rw [Numeral.isTooLarge, happrox]
  change (_ && true && (false || decide (_ ≤ _ * roundBinary 53 (Nat.pow 10 0)))) = false
  rw [hone, decide_eq_false hlarge]
  exact Bool.and_false _

/-- The digits of a number are taken to the end. -/
theorem digits_append {ds : Text} (h : IsDigits ds) {t : Text}
    (ht : ∀ c, t.head? = some c → c.isDigit = false) : digits (ds ++ t) = .ok (ds, t) := by
  have htake : t.takeWhile Char.isDigit = [] ∧ t.dropWhile Char.isDigit = t := by
    cases t with
    | nil => exact ⟨rfl, rfl⟩
    | cons c t =>
        have hc := ht c rfl
        exact ⟨List.takeWhile_cons_of_neg (by simp [hc]), List.dropWhile_cons_of_neg (by simp [hc])⟩
  rw [digits, List.takeWhile_append_of_pos h.2, List.dropWhile_append_of_pos h.2, htake.1, htake.2,
    List.append_nil]
  obtain ⟨c, ds, rfl⟩ := List.exists_cons_of_ne_nil h.1
  rfl

theorem isWhole_toDigits (n : Nat) : IsWhole (Nat.toDigits 10 n) := by
  have hdigits : ∀ c ∈ Nat.toDigits 10 n, c.isDigit :=
    fun c hc => Nat.isDigit_of_mem_toDigits (by decide) (by decide) hc
  refine ⟨⟨Nat.toDigits_ne_nil, hdigits⟩, ?_⟩
  clear hdigits
  induction n using Nat.strongRecOn with
  | ind n ih =>
      by_cases hlt : n < 10
      · rw [Nat.toDigits_of_lt_base hlt]
        intro hhead
        rw [← Option.some.inj hhead]
      · have hten : 10 ≤ n := Nat.not_lt.mp hlt
        rw [Nat.toDigits_of_base_le (by decide) hten,
          List.head?_append_of_ne_nil _ Nat.toDigits_ne_nil]
        intro hhead
        -- The number before the last digit would be zero.
        have hzero := congrArg Numeral.natOf (ih (n / 10) (by omega) hhead)
        rw [natOf_toDigits] at hzero
        have : n / 10 = 0 := hzero
        omega

/-- The digits of a natural number write it. -/
theorem writes_natural (n : Nat) {b : Text} (hb : IsBlank b) :
    (Json.natural n).Writes (b ++ Nat.toDigits 10 n) := by
  have hnumber : IsNumber ([] ++ (Nat.toDigits 10 n ++ ([] ++ []))) :=
    .mk (by simp) (isWhole_toDigits n) .nil .nil
  rw [List.nil_append, List.append_nil, List.append_nil] at hnumber
  exact .number hb hnumber

theorem numeral_whole {ds : Text} (h : IsWhole ds) {t : Text} (ht : Follows t) :
    numeral (ds ++ t) = .ok (⟨false, ds, none, none⟩, t) := by
  have hdigits : digits (ds ++ t) = .ok (ds, t) :=
    digits_append h.1 fun c hc => (of_mem_followers (ht c hc)).1
  have hwhole : wholeDigits (ds ++ t) = .ok (ds, t) := by
    unfold wholeDigits
    rw [hdigits]
    dsimp only [bind, Except.bind]
    split
    · rename_i heq
      cases h.2 (by rw [(Prod.mk.inj heq).1]; rfl) ▸ (Prod.mk.inj heq).1
    · rfl
  obtain ⟨c, ds, rfl⟩ := List.exists_cons_of_ne_nil h.1.1
  have hminus : c ≠ '-' := by
    rintro rfl
    cases h.1.2 '-' List.mem_cons_self
  unfold numeral
  split
  rename_i negative u hsign
  obtain ⟨rfl, rfl⟩ : false = negative ∧ c :: ds ++ t = u := by
    split at hsign
    · rename_i heq
      cases hminus (List.cons.inj heq).1
    · exact Prod.mk.inj hsign
  rw [hwhole]
  -- What follows begins neither a fraction nor an exponent.
  cases t with
  | nil => rfl
  | cons d t =>
      have hd := ht d rfl
      simp only [followers, List.mem_cons, List.not_mem_nil, or_false] at hd
      rcases hd with rfl | rfl | rfl | rfl | rfl | rfl | rfl <;> rfl

/-- A number of 64 bits is read from its digits. -/
theorem natural_reads {n : Nat} (h : n < Nat.pow 2 64) : Reads natural (.natural n) n := by
  intro t ht rest hrest
  cases ht with
  | number hb _ =>
      have hwhole := isWhole_toDigits n
      have hnumber : number (Nat.toDigits 10 n ++ rest) =
          .ok (⟨false, Nat.toDigits 10 n, none, none⟩, rest) := by
        rw [number, numeral_whole hwhole hrest]
        change (if Numeral.isTooLarge _ = true then _ else _) = _
        rw [isTooLarge_eq_false (by rw [natOf_toDigits]; exact h)]
        rfl
      have htoNat : (⟨false, Nat.toDigits 10 n, none, none⟩ : Numeral).toNat? = some n := by
        rw [Numeral.toNat?, natOf_toDigits]
        simp [UInt64.size, h]
      obtain ⟨⟨hne, hdigits⟩, -⟩ := hwhole
      generalize Nat.toDigits 10 n = ds at *
      obtain ⟨c, ds, rfl⟩ := List.exists_cons_of_ne_nil hne
      have hc : c.isDigit = true := hdigits c List.mem_cons_self
      rw [natural, List.append_assoc, List.cons_append,
        skipSpace_append hb (isSpace_eq_false_of_isDigit hc)]
      change (if c = '-' ∨ c.isDigit then _ else _) = _
      rw [if_pos (Or.inr hc)]
      rw [List.cons_append] at hnumber
      rw [hnumber]
      dsimp only
      rw [htoNat]

/-! ### Lists -/

/-- A value begins with a character that is no blank and closes nothing, and the blanks in front of
it can be left out. -/
theorem writes_trim {v : Json} {t : Text} (h : v.Writes t) :
    ∃ b c u, t = b ++ c :: u ∧ IsBlank b ∧ isSpace c = false ∧ c ≠ ']' ∧ v.Writes (c :: u) := by
  have hnil : IsBlank [] := List.forall_mem_nil _
  cases h with
  | null hb => exact ⟨_, _, _, rfl, hb, rfl, by decide, .null hnil⟩
  | true hb => exact ⟨_, _, _, rfl, hb, rfl, by decide, .true hnil⟩
  | false hb => exact ⟨_, _, _, rfl, hb, rfl, by decide, .false hnil⟩
  | number hb hnumber =>
      obtain ⟨c, u, -, -, rfl, hstart, -⟩ := run?_of_isNumber hnumber
      exact ⟨_, c, u, rfl, hb, hstart.1, hstart.2, .number hnil hnumber⟩
  | text hb hstring => exact ⟨_, _, _, rfl, hb, rfl, by decide, .text hnil hstring⟩
  | array hb hitems => exact ⟨_, _, _, rfl, hb, rfl, by decide, .array hnil hitems⟩
  | object hb hmembers => exact ⟨_, _, _, rfl, hb, rfl, by decide, .object hnil hmembers⟩

theorem length_le_of_writesItems {items : List Json} {t : Text} (h : WritesItems items t) :
    items.length ≤ t.length := by
  induction items generalizing t with
  | nil => exact Nat.zero_le _
  | cons v items ih =>
      cases h with
      | last hv hb =>
          obtain ⟨b, c, u, rfl, -⟩ := writes_trim hv
          simp only [List.length_append, List.length_cons, List.length_nil]
          omega
      | cons hv hb hitems =>
          have hle := ih hitems
          simp only [List.length_append, List.length_cons] at hle ⊢
          omega

theorem nextElement?_value {v : Json} {t : Text} (h : v.Writes t) (rest : Text) :
    ∃ u, nextElement? true (t ++ rest) = .ok (some (u ++ rest)) ∧ v.Writes u := by
  obtain ⟨b, c, u, rfl, hb, hc, hclose, hwrites⟩ := writes_trim h
  refine ⟨c :: u, ?_, hwrites⟩
  rw [nextElement?, List.append_assoc, List.cons_append, skipSpace_append hb hc]
  simp [hclose]

/-- After a comma another element follows as the first one does. -/
theorem nextElement?_comma {b : Text} (hb : IsBlank b) {v : Json} {t : Text} (h : v.Writes t)
    (rest : Text) :
    nextElement? false (b ++ ',' :: (t ++ rest)) = nextElement? true (t ++ rest) := by
  obtain ⟨b', c, u, rfl, hb', hc, hclose, -⟩ := writes_trim h
  have hskip : skipSpace (b' ++ c :: u ++ rest) = c :: (u ++ rest) := by
    rw [List.append_assoc, List.cons_append, skipSpace_append hb' hc]
  have hcomma : skipSpace (b ++ ',' :: (b' ++ c :: u ++ rest)) = ',' :: (b' ++ c :: u ++ rest) :=
    skipSpace_append hb rfl _
  simp only [nextElement?, hcomma, hskip]
  simp [hclose]

section Lists

variable {α : Type} {element : JsonReader α}

theorem elementsFrom_close {b : Text} (hb : IsBlank b) (first : Bool) (passed : List α) (fuel : Nat)
    (rest : Text) : elementsFrom element first passed (fuel + 1) (b ++ ']' :: rest) =
      .ok (passed.reverse, rest) := by
  have hnext : nextElement? first (b ++ ']' :: rest) = .ok none := by
    rw [nextElement?, skipSpace_append hb rfl]
    rfl
  have hclose : closeArray (b ++ ']' :: rest) = .ok rest := by
    rw [closeArray, skipSpace_append hb rfl]
    rfl
  rw [elementsFrom, hnext]
  change (closeArray (b ++ ']' :: rest) >>= _) = _
  rw [hclose]
  rfl

theorem elementsFrom_value {v : Json} {a : α} (hread : Reads element v a) {t : Text}
    (h : v.Writes t) (passed : List α) (fuel : Nat) {rest : Text} (hrest : Follows rest) :
    elementsFrom element true passed (fuel + 1) (t ++ rest) =
      elementsFrom element false (a :: passed) fuel rest := by
  obtain ⟨u, hnext, hu⟩ := nextElement?_value h rest
  rw [elementsFrom, hnext]
  change (element (u ++ rest) >>= _) = _
  rw [hread u hu rest hrest]
  rfl

theorem elementsFrom_comma {b : Text} (hb : IsBlank b) {v : Json} {t : Text} (h : v.Writes t)
    (passed : List α) (fuel : Nat) (rest : Text) :
    elementsFrom element false passed (fuel + 1) (b ++ ',' :: (t ++ rest)) =
      elementsFrom element true passed (fuel + 1) (t ++ rest) := by
  obtain ⟨u, hnext, -⟩ := nextElement?_value h rest
  rw [elementsFrom, elementsFrom, nextElement?_comma hb h, hnext]
  rfl

/-- The items of an array are read one by one, from the first one on. -/
theorem elementsFrom_items {items : List Json} {as : List α}
    (hitems : List.Forall₂ (Reads element) items as) {t : Text} (h : WritesItems items t)
    (passed : List α) {fuel : Nat} (hfuel : items.length < fuel) (rest : Text) :
    elementsFrom element true passed fuel (t ++ ']' :: rest) =
      .ok (passed.reverse ++ as, rest) := by
  induction items generalizing t passed fuel as with
  | nil =>
      cases hitems
      cases h with
      | nil hb =>
          obtain ⟨fuel, rfl⟩ := Nat.exists_eq_succ_of_ne_zero (Nat.ne_zero_of_lt hfuel)
          rw [elementsFrom_close hb, List.append_nil]
  | cons v items ih =>
      obtain ⟨fuel, rfl⟩ : ∃ k, fuel = k + 2 := ⟨fuel - 2, by rw [List.length_cons] at hfuel; omega⟩
      cases hitems with
      | cons hread hitems =>
          rename_i a as
          cases h with
          | last hv hb =>
              cases hitems
              rw [List.append_assoc,
                elementsFrom_value hread hv _ _ (follows_bracket.blank_append hb),
                elementsFrom_close hb, List.reverse_cons]
          | cons hv hb h =>
              rename_i w items t b u
              have hnext : ∃ x y, u = x ++ y ∧ w.Writes x := by
                cases h with
                | last hw _ => exact ⟨_, _, rfl, hw⟩
                | cons hw _ _ => exact ⟨_, _, rfl, hw⟩
              obtain ⟨x, y, rfl, hw⟩ := hnext
              rw [List.append_assoc, List.append_assoc, List.cons_append,
                elementsFrom_value hread hv _ _ (follows_comma.blank_append hb),
                List.append_assoc, elementsFrom_comma hb hw, ← List.append_assoc,
                ih hitems h _ (Nat.lt_of_succ_lt_succ hfuel), List.reverse_cons,
                List.append_assoc]
              rfl

theorem list_reads {items : List Json} {as : List α}
    (hitems : List.Forall₂ (Reads element) items as) : Reads (list element) (.array items) as := by
  intro t ht rest _
  cases ht with
  | array hb h =>
      rename_i u
      rw [list, List.append_assoc, List.cons_append, skipSpace_append hb rfl, List.append_assoc]
      refine elementsFrom_items hitems h [] ?_ rest
      have hle := length_le_of_writesItems h
      simp only [List.length_append]
      omega

end Lists

end JsonReader

end ElementScript
