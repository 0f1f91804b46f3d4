import ElementScript.Text

/-!
# Proper places of a text

A place is proper where the text can be cut in two, which is where `Text.splitAt?` succeeds. Places
are carried through appending, and a position that is located at a proper place stands exactly
there (`Position.byte_locate_of_isPlace`). `Text.bytes` is the text in UTF-8, so that what stands at
an offset can be compared byte by byte.
-/

namespace ElementScript

namespace Text

/-! ### Places -/

/-- The offset `n` falls between two characters of the text, or at one of its ends. -/
def IsPlace (t : Text) (n : Nat) : Prop := ∃ before after, t = before ++ after ∧ byteSize before = n

theorem isPlace_byteSize_append (s t : Text) : IsPlace (s ++ t) (byteSize s) := ⟨s, t, rfl, rfl⟩

theorem isPlace_zero (t : Text) : t.IsPlace 0 := isPlace_byteSize_append [] t

theorem IsPlace.le {t : Text} {n : Nat} (h : t.IsPlace n) : n ≤ byteSize t := by
  obtain ⟨before, after, rfl, rfl⟩ := h
  simp

/-- A place moves along when text is put in front of it. -/
theorem IsPlace.append_left {t : Text} {n : Nat} (h : t.IsPlace n) (s : Text) :
    IsPlace (s ++ t) (byteSize s + n) := by
  obtain ⟨before, after, rfl, rfl⟩ := h
  exact ⟨s ++ before, after, by simp, by simp⟩

theorem byteSize_pos {t : Text} (h : t ≠ []) : 0 < byteSize t := by
  cases t with
  | nil => exact absurd rfl h
  | cons c t =>
      have hc := c.utf8Size_pos
      rw [byteSize_cons]
      omega

@[simp] theorem byteSize_eq_zero {t : Text} : byteSize t = 0 ↔ t = [] := by
  constructor
  · intro h
    cases t with
    | nil => rfl
    | cons c t =>
        have := byteSize_pos (List.cons_ne_nil c t)
        omega
  · intro heq
    subst heq
    rfl

/-- No place falls inside a character. -/
theorem IsPlace.not_inside {s t : Text} {c : Char} {n : Nat} (h : IsPlace (s ++ c :: t) n) :
    n ≤ byteSize s ∨ byteSize s + c.utf8Size ≤ n := by
  obtain ⟨before, after, ht, rfl⟩ := h
  -- The cut reaches past `s`, by nothing or by `c` at least, or it falls into `s`.
  rcases List.append_eq_append_iff.mp ht with ⟨u, rfl, hu⟩ | ⟨u, rfl, -⟩
  · cases u with
    | nil => exact Or.inl (by simp)
    | cons d u =>
        simp only [List.cons_append, List.cons.injEq] at hu
        obtain ⟨rfl, -⟩ := hu
        exact Or.inr (by simp only [byteSize_append, byteSize_cons]; omega)
  · exact Or.inl (by simp)

/-- One text is cut in two ways: either the second cut is not before the first one, or it is. -/
theorem append_eq_append_cases {a b c d : Text} (h : a ++ b = c ++ d) :
    (∃ c', c = a ++ c' ∧ b = c' ++ d) ∨ ∃ a', a' ≠ [] ∧ a = c ++ a' ∧ d = a' ++ b := by
  rcases List.append_eq_append_iff.mp h with hbehind | ⟨a', ha, hd⟩
  · exact Or.inl hbehind
  · by_cases hnil : a' = []
    · rw [hnil, List.append_nil] at ha
      rw [hnil, List.nil_append] at hd
      exact Or.inl ⟨[], by rw [ha, List.append_nil], hd.symm⟩
    · exact Or.inr ⟨a', hnil, ha, hd⟩

/-! ### Taking bytes -/

theorem takeBytesFrom_append (passed s t : Text) :
    takeBytesFrom passed (byteSize s) (s ++ t) = passed.reverse ++ s := by
  induction s generalizing passed with
  | nil =>
      cases t with
      | nil => simp [takeBytesFrom]
      | cons c t =>
          have hc := c.utf8Size_pos
          rw [List.nil_append, takeBytesFrom, if_neg (by simp; omega)]
          simp
  | cons c s ih =>
      rw [List.cons_append, takeBytesFrom, if_pos (by simp), byteSize_cons,
        Nat.add_sub_cancel_left, ih]
      simp

/-- Inside of a character, as much is taken as in front of it. -/
theorem takeBytes_inside (s t : Text) {c : Char} {k : Nat} (hk : k < c.utf8Size) :
    takeBytes (byteSize s + k) (s ++ c :: t) = s := by
  have htake (passed : Text) : takeBytesFrom passed (byteSize s + k) (s ++ c :: t) =
      passed.reverse ++ s := by
    induction s generalizing passed with
    | nil =>
        rw [List.nil_append, takeBytesFrom, if_neg (by simpa using hk), List.append_nil]
    | cons d s ih =>
        have hsize : byteSize (d :: s) + k - d.utf8Size = byteSize s + k := by
          rw [byteSize_cons]
          omega
        rw [List.cons_append, takeBytesFrom, if_pos (by rw [byteSize_cons]; omega), hsize, ih,
          List.reverse_cons, List.append_assoc, List.singleton_append]
  exact htake []

/-- Up to a proper place, exactly the text before it is taken. -/
@[simp] theorem takeBytes_byteSize_append (s t : Text) : takeBytes (byteSize s) (s ++ t) = s :=
  takeBytesFrom_append [] s t

theorem dropBytes?_go_append (m : Nat) (s t : Text) :
    dropBytes?.go m (byteSize s) (s ++ t) = some (m + byteSize s, t) := by
  induction s generalizing m with
  | nil => simp [dropBytes?.go]
  | cons c s ih =>
      obtain ⟨k, hk⟩ : ∃ k, byteSize (c :: s) = k + 1 :=
        Nat.exists_eq_succ_of_ne_zero (by rw [ne_eq, byteSize_eq_zero]; simp)
      have hsize : k + 1 - c.utf8Size = byteSize s := by rw [← hk]; simp
      rw [hk, List.cons_append, dropBytes?.go, hsize, ih, ← hk, byteSize_cons, Nat.add_assoc]

/-- At a proper place, exactly the text before it is dropped. -/
@[simp] theorem dropBytes?_byteSize_append (s t : Text) :
    dropBytes? (byteSize s) (s ++ t) = some (byteSize s, t) := by
  rw [dropBytes?, dropBytes?_go_append, Nat.zero_add]

@[simp] theorem splitAt?_byteSize_append (s t : Text) :
    splitAt? (byteSize s) (s ++ t) = some (s, t) :=
  splitAt?_eq_some_iff.mpr ⟨rfl, rfl⟩

/-- A text is cut at a place in one way only. -/
theorem append_inj_of_byteSize {a b c d : Text} (h : a ++ b = c ++ d)
    (hsize : byteSize a = byteSize c) : a = c ∧ b = d := by
  have hcut : splitAt? (byteSize a) (a ++ b) = some (c, d) := by
    rw [h, hsize, splitAt?_byteSize_append]
  rw [splitAt?_byteSize_append] at hcut
  exact Prod.mk.inj (Option.some.inj hcut)

/-- Of two cuts, the one at the lesser place is in front of the other. -/
theorem exists_append_of_byteSize_le {a b c d : Text} (h : a ++ b = c ++ d)
    (hle : byteSize a ≤ byteSize c) : ∃ u, c = a ++ u ∧ b = u ++ d := by
  rcases append_eq_append_cases h with hbehind | ⟨a', ha', rfl, -⟩
  · exact hbehind
  · have hpos := byteSize_pos ha'
    rw [byteSize_append] at hle
    omega

/-- Between the two ends of a part of a text stands that part. -/
theorem slice?_byteSize_append (s t u : Text) :
    slice? (byteSize s) (byteSize s + byteSize t) (s ++ (t ++ u)) = some t := by
  rw [slice?, if_pos (Nat.le_add_right _ _), Nat.add_sub_cancel_left, splitAt?_byteSize_append,
    Option.bind_some, splitAt?_byteSize_append, Option.map_some]

theorem slice?_eq_some_iff {start stop : Nat} {t part : Text} :
    slice? start stop t = some part ↔
      ∃ before after, t = before ++ (part ++ after) ∧ byteSize before = start ∧
        start + byteSize part = stop := by
  constructor
  · intro h
    rw [slice?] at h
    split at h
    case isTrue hle =>
      obtain ⟨inner, hinner, rfl⟩ := Option.map_eq_some_iff.mp h
      obtain ⟨outer, houter, hinner⟩ := Option.bind_eq_some_iff.mp hinner
      obtain ⟨ht, hstart⟩ := splitAt?_eq_some_iff.mp houter
      obtain ⟨hrest, hsize⟩ := splitAt?_eq_some_iff.mp hinner
      exact ⟨outer.1, inner.2, by rw [← hrest, ← ht], hstart, by omega⟩
    case isFalse => cases h
  · intro h
    obtain ⟨before, after, rfl, rfl, rfl⟩ := h
    exact slice?_byteSize_append before part after

/-- A part of a text can be taken exactly between two proper places in order. -/
theorem isSome_slice?_iff {start stop : Nat} {t : Text} :
    (slice? start stop t).isSome ↔ start ≤ stop ∧ t.IsPlace start ∧ t.IsPlace stop := by
  rw [Option.isSome_iff_exists]
  constructor
  · intro h
    obtain ⟨part, hpart⟩ := h
    obtain ⟨before, after, rfl, rfl, rfl⟩ := slice?_eq_some_iff.mp hpart
    exact ⟨Nat.le_add_right _ _, isPlace_byteSize_append _ _,
      (isPlace_byteSize_append part after).append_left before⟩
  · intro h
    obtain ⟨hle, ⟨before, rest, rfl, rfl⟩, ⟨front, after, ht, rfl⟩⟩ := h
    obtain ⟨part, rfl, rfl⟩ := exists_append_of_byteSize_le ht hle
    exact ⟨part, slice?_eq_some_iff.mpr ⟨before, after, rfl, rfl, (byteSize_append _ _).symm⟩⟩

/-! ### Bytes -/

/-- The text in UTF-8. -/
def bytes (t : Text) : List UInt8 := t.flatMap String.utf8EncodeChar

@[simp] theorem bytes_cons (c : Char) (t : Text) :
    bytes (c :: t) = String.utf8EncodeChar c ++ bytes t := rfl

@[simp] theorem bytes_append (s t : Text) : bytes (s ++ t) = bytes s ++ bytes t := by
  simp [bytes]

@[simp] theorem length_bytes (t : Text) : (bytes t).length = byteSize t := by
  induction t with
  | nil => rfl
  | cons c t ih => simp [ih]

/-- The bytes of a part of a text stand where the part does. -/
theorem bytes_extract_append (s t u : Text) :
    (bytes (s ++ (t ++ u))).extract (byteSize s) (byteSize s + byteSize t) = bytes t := by
  rw [List.extract_eq_take_drop, bytes_append, bytes_append, ← length_bytes s,
    List.drop_left, Nat.add_sub_cancel_left, ← length_bytes t, List.take_left]

/-- The bytes of a character stand where the character does. -/
theorem bytes_getElem?_char (s t : Text) (c : Char) {k : Nat} (hk : k < c.utf8Size) :
    (bytes (s ++ c :: t))[byteSize s + k]? = (String.utf8EncodeChar c)[k]? := by
  rw [bytes_append, List.getElem?_append_right (by simp), length_bytes, Nat.add_sub_cancel_left,
    bytes_cons, List.getElem?_append_left (by simpa using hk)]

end Text

/-! ### Positions at proper places -/

namespace Position

/-- The position of a proper place is read off the text before it. -/
theorem locate_byteSize_append (s t : Text) :
    locate (s ++ t) (Text.byteSize s) = after s := by
  rw [locate, Text.takeBytes_byteSize_append]

/-- The position of a place inside of a character is that of the character. -/
theorem locate_inside (s t : Text) {c : Char} {k : Nat} (hk : k < c.utf8Size) :
    locate (s ++ c :: t) (Text.byteSize s + k) = after s := by
  rw [locate, Text.takeBytes_inside s t hk]

/-- A position located at a proper place stands there. -/
theorem byte_locate_of_isPlace {t : Text} {n : Nat} (h : t.IsPlace n) :
    (locate t n).byte = n := by
  obtain ⟨before, rest, rfl, rfl⟩ := h
  rw [locate_byteSize_append]
  rfl

/-- The last line of a text begins behind any line feed. -/
theorem takeWhile_append_newline (u w : Text) :
    (u ++ '\n' :: w).takeWhile (· != '\n') = u.takeWhile (· != '\n') := by
  induction u with
  | nil => rfl
  | cons c u ih =>
      rw [List.cons_append, List.takeWhile_cons, List.takeWhile_cons, ih]

/-- With more lines in front, a position moves down by as many lines and keeps its column. -/
theorem locate_newline_append (p : Text) {t : Text} {n : Nat} (h : t.IsPlace n) :
    locate (p ++ ['\n'] ++ t) (Text.byteSize (p ++ ['\n']) + n) =
      ⟨(locate t n).byte + Text.byteSize p + 1, (locate t n).line + p.count '\n' + 1,
        (locate t n).column⟩ := by
  obtain ⟨before, rest, rfl, rfl⟩ := h
  have hnewline : '\n'.utf8Size = 1 := by decide
  rw [← List.append_assoc, ← Text.byteSize_append, locate_byteSize_append, locate_byteSize_append]
  simp only [after, mk.injEq]
  refine ⟨?_, ?_, ?_⟩
  · simp only [Text.byteSize_append, Text.byteSize_cons, Text.byteSize_nil, hnewline]
    omega
  · simp only [List.count_append, List.count_singleton_self]
    omega
  · rw [List.reverse_append, List.reverse_append, List.reverse_singleton, List.singleton_append,
      takeWhile_append_newline]

end Position

end ElementScript
