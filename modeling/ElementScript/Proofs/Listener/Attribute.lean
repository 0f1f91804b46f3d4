import ElementScript.Proofs.Cut
import ElementScript.Proofs.Listener.Dispatcher
import ElementScript.Proofs.Listener.Tokens

/-!
# The attribute of a listener

The attribute of a listener should be what its first literal holds: `firstLiteral?` reads that
literal as the scanner does that finds the handler block. The search for a quoted name knows nothing
of literals, and so it may find a name in two other places: between an escaped quote and the quote
that opens the literal (`Literal.straddled?`), and from inside the literal on. `attribute?_eq` says
which of the three is taken, and `liftListeners_observed` for which calls it is the literal's own.
-/

namespace ElementScript

/-! ### Names and blanks around them -/

namespace Text

/-- What stands behind the last `q` of the text. -/
def behindLast? (q : Char) : Text → Option Text
  | [] => none
  | c :: t => (behindLast? q t).or (if c = q then some t else none)

theorem behindLast?_eq_none {q : Char} {t : Text} (h : q ∉ t) : behindLast? q t = none := by
  induction t with
  | nil => rfl
  | cons c t ih =>
      rw [List.mem_cons, not_or] at h
      obtain ⟨hc, ht⟩ := h
      rw [behindLast?, ih ht, if_neg (Ne.symm hc)]
      rfl

/-- Between two quotes of one kind, the text has `inner`, whether these are the quotes of a literal
or not. -/
def Quotes (t inner : Text) : Prop :=
  ∃ w q rest, isQuote q ∧ t = w ++ q :: (inner ++ q :: rest)

/-- Blanks at the start and at the end of a text are what is trimmed off. -/
theorem exists_trim_append (t : Text) :
    ∃ gap gap', t = gap ++ (trim t ++ gap') ∧ (∀ c ∈ gap, isBlank c) ∧ ∀ c ∈ gap', isBlank c := by
  obtain ⟨gap', hgap', hblank⟩ := exists_trimEnd_append (trimStart t)
  refine ⟨blanks t, gap', ?_, fun c hc => isBlank_of_mem_blanks hc, hblank⟩
  rw [trim, ← hgap', blanks_append_trimStart]

/-- Blanks around a text without blanks are trimmed off. -/
theorem trim_append {name gap gap' : Text} (hne : name ≠ []) (hname : ∀ c ∈ name, ¬ isBlank c)
    (hgap : ∀ c ∈ gap, isBlank c) (hgap' : ∀ c ∈ gap', isBlank c) :
    trim (gap ++ (name ++ gap')) = name := by
  have hstart : trimStart (gap ++ (name ++ gap')) = name ++ gap' := by
    obtain ⟨c, u, rfl⟩ := List.exists_cons_of_ne_nil hne
    exact trimStart_append_cons hgap (hname c List.mem_cons_self)
  have hend : trimStart (gap'.reverse ++ name.reverse) = name.reverse := by
    obtain ⟨c, u, hu⟩ := List.exists_cons_of_ne_nil (List.reverse_ne_nil_iff.mpr hne)
    have hc : c ∈ name := List.mem_reverse.mp (hu ▸ List.mem_cons_self)
    rw [hu]
    exact trimStart_append_cons (by simpa using hgap') (hname c hc)
  have hreverse : (name ++ gap').reverse = gap'.reverse ++ name.reverse := by simp
  show (trimStart (trimStart (gap ++ (name ++ gap'))).reverse).reverse = name
  rw [hstart, hreverse, hend, List.reverse_reverse]

end Text

namespace Listener

variable {t name rest : Text}

/-- A name that an attribute may have. -/
def isAttributeName (t : Text) : Bool := !t.isEmpty && t.all isAttributePart

/-- The attribute name that the text holds, if there is nothing else but blanks around it. -/
def attributeName? (t : Text) : Option Text :=
  if isAttributeName (Text.trim t) then some (Text.trim t) else none

theorem isAttributeName_iff : isAttributeName t ↔ t ≠ [] ∧ ∀ c ∈ t, isAttributePart c := by
  simp [isAttributeName]

/-- What an attribute name is made of means nothing to a scanner. -/
theorem isPlain_of_isAttributePart {c : Char} (h : isAttributePart c) : BraceState.isPlain c :=
  BraceState.isPlain_of_class (by decide) h

theorem attributeName?_eq_some_iff :
    attributeName? t = some name ↔ ∃ gap gap', t = gap ++ (name ++ gap') ∧
      (∀ c ∈ gap, Text.isBlank c) ∧ (∀ c ∈ gap', Text.isBlank c) ∧ isAttributeName name := by
  constructor
  · intro h
    obtain ⟨hname, htrim⟩ := (Option.ite_none_right_eq_some).mp h
    obtain rfl : Text.trim t = name := Option.some.inj htrim
    obtain ⟨gap, gap', ht, hgap, hgap'⟩ := Text.exists_trim_append t
    exact ⟨gap, gap', ht, hgap, hgap', hname⟩
  · intro hspec
    obtain ⟨gap, gap', rfl, hgap, hgap', hname⟩ := hspec
    obtain ⟨hne, hpart⟩ := isAttributeName_iff.mp hname
    have htrim : Text.trim (gap ++ (name ++ gap')) = name :=
      Text.trim_append hne (fun c hc => not_isBlank_of_isAttributePart (hpart c hc)) hgap hgap'
    rw [attributeName?, htrim, if_pos hname]

/-- A text that holds an attribute name means nothing to a scanner. -/
theorem isPlain_of_attributeName? (h : attributeName? t = some name) :
    ∀ c ∈ t, BraceState.isPlain c := by
  obtain ⟨gap, gap', rfl, hgap, hgap', hname⟩ := attributeName?_eq_some_iff.mp h
  obtain ⟨-, hpart⟩ := isAttributeName_iff.mp hname
  simp only [List.forall_mem_append]
  exact ⟨fun c hc => Text.isPlain_of_isBlank (hgap c hc),
    fun c hc => isPlain_of_isAttributePart (hpart c hc),
    fun c hc => Text.isPlain_of_isBlank (hgap' c hc)⟩

theorem not_isQuote_of_isPlain {c : Char} (h : BraceState.isPlain c) : ¬ Text.isQuote c := by
  simp only [BraceState.isPlain, Bool.and_eq_true, Bool.not_eq_true'] at h
  simp [h.2]

/-- Between two quotes of one kind, a name is read. -/
theorem attributeAt?_quoted {q : Char} {inner : Text} (hq : Text.isQuote q)
    (hinner : attributeName? inner = some name) :
    attributeAt? (q :: (inner ++ q :: rest)) = some (name, rest) := by
  obtain ⟨gap, gap', rfl, hgap, hgap', hname⟩ := attributeName?_eq_some_iff.mp hinner
  obtain ⟨hne, hpart⟩ := isAttributeName_iff.mp hname
  have hstart :
      Text.trimStart (gap ++ (name ++ gap') ++ q :: rest) = name ++ (gap' ++ q :: rest) := by
    obtain ⟨c, u, rfl⟩ := List.exists_cons_of_ne_nil hne
    have hc := not_isBlank_of_isAttributePart (hpart c List.mem_cons_self)
    simpa using Text.trimStart_append_cons (t := u ++ (gap' ++ q :: rest)) hgap hc
  have hbehind : ¬ (gap' ++ q :: rest).head?.any isAttributePart := by
    cases gap' with
    | nil => exact fun hpart => not_isQuote_of_isPlain (isPlain_of_isAttributePart hpart) hq
    | cons d u =>
        exact fun hpart => not_isBlank_of_isAttributePart hpart (hgap' d List.mem_cons_self)
  have htake : (name ++ (gap' ++ q :: rest)).takeWhile isAttributePart = name :=
    CodeToken.takeWhile_append_eq_left.mpr ⟨hpart, hbehind⟩
  have hquote : ¬ Text.isBlank q := fun hblank =>
    not_isQuote_of_isPlain (Text.isPlain_of_isBlank hblank) hq
  have hempty : name.isEmpty = false := by simpa using hne
  rw [attributeAt?, if_pos hq]
  dsimp only
  rw [hstart, htake, CodeToken.dropWhile_of_takeWhile htake,
    Text.trimStart_append_cons hgap' hquote]
  simp [hempty]

/-- A name is read off the start of a text if and only if it is what stands between two quotes of a
kind. -/
theorem attributeAt?_eq_some_iff :
    attributeAt? t = some (name, rest) ↔
      ∃ q inner, t = q :: (inner ++ q :: rest) ∧ Text.isQuote q ∧
        attributeName? inner = some name := by
  constructor
  · intro h
    obtain ⟨q, gap, gap', rfl, hq, hgap, hgap', hne, hpart⟩ := attributeAt?_eq_some h
    refine ⟨q, gap ++ (name ++ gap'), by simp, hq, ?_⟩
    exact attributeName?_eq_some_iff.mpr
      ⟨gap, gap', rfl, hgap, hgap', isAttributeName_iff.mpr ⟨hne, hpart⟩⟩
  · intro hspec
    obtain ⟨q, inner, rfl, hq, hinner⟩ := hspec
    exact attributeAt?_quoted hq hinner

end Listener

/-! ### Texts along which no literal opens or closes -/

namespace QuoteState

variable {s : QuoteState} {c : Char} {t u : Text}

/-- All along the text, a scan from the state stays in the literal in which it is, or outside of
any. -/
def Keeps (s : QuoteState) (t : Text) : Prop := ∀ p, p <+: t → (s.run p).quote = s.quote

theorem keeps_nil : s.Keeps [] := by
  intro p hp
  rw [List.prefix_nil.mp hp, run_nil]

theorem keeps_cons : s.Keeps (c :: t) ↔ (s.step c).quote = s.quote ∧ (s.step c).Keeps t := by
  constructor
  · intro h
    have hstep : (s.step c).quote = s.quote := h [c] (List.prefix_append [c] t)
    refine ⟨hstep, fun p hp => ?_⟩
    rw [hstep]
    exact h (c :: p) (List.cons_prefix_cons.mpr ⟨rfl, hp⟩)
  · intro hspec p hp
    obtain ⟨hstep, ht⟩ := hspec
    rcases List.prefix_cons_iff.mp hp with rfl | ⟨u, rfl, hu⟩
    · rfl
    · rw [run_cons, ht u hu, hstep]

theorem Keeps.of_append_left (h : s.Keeps (t ++ u)) : s.Keeps t :=
  fun p hp => h p (hp.trans (List.prefix_append t u))

theorem Keeps.run_quote (h : s.Keeps t) : (s.run t).quote = s.quote := h t (List.prefix_refl t)

theorem Keeps.run_of_append (h : s.Keeps (t ++ u)) : (s.run t).Keeps u := by
  intro p hp
  rw [h.of_append_left.run_quote, ← run_append]
  exact h (t ++ p) ((List.prefix_append_right_inj t).mpr hp)

/-- A character of a literal closes it or is passed over. -/
theorem step_of_literal {q : Char} (hs : s.quote = some q) (c : Char) :
    c = q ∧ s.step c = .code ∨ (s.step c).quote = some q := by
  obtain ⟨quote, escaped⟩ := s
  obtain rfl : quote = some q := hs
  unfold step
  split
  · exact Or.inr rfl
  · split
    · exact Or.inr rfl
    · by_cases hc : c = q
      · exact Or.inl ⟨hc, if_pos hc⟩
      · exact Or.inr (congrArg QuoteState.quote (if_neg hc))

/-- A character outside of any literal opens one or is passed over. -/
theorem step_of_code (hs : s.quote = none) (c : Char) :
    Text.isQuote c ∧ s.step c = ⟨some c, false⟩ ∨ (s.step c).quote = none := by
  obtain ⟨quote, escaped⟩ := s
  obtain rfl : quote = none := hs
  unfold step
  split
  · exact Or.inr rfl
  · split
    · exact Or.inr rfl
    · by_cases hc : Text.isQuote c
      · exact Or.inl ⟨hc, if_pos hc⟩
      · exact Or.inr (congrArg QuoteState.quote (if_neg hc))

section Quotes

variable {q : Char} (hq : Text.isQuote q)

include hq

theorem code_step_quote : code.step q = ⟨some q, false⟩ := by
  simp [step, code, Text.ne_backslash_of_isQuote hq, hq]

theorem literal_step_quote : step ⟨some q, false⟩ q = code := by
  simp [step, Text.ne_backslash_of_isQuote hq]

theorem code_step_quote_ne : (code.step q).quote ≠ code.quote := by
  rw [code_step_quote hq]
  exact Option.some_ne_none q

theorem literal_step_quote_ne : (step ⟨some q, false⟩ q).quote ≠ some q := by
  rw [literal_step_quote hq]
  exact (Option.some_ne_none q).symm

theorem isProper_literal : IsProper ⟨some q, false⟩ := by
  rintro _ ⟨⟩
  exact hq

end Quotes

/-- A quote that opens no literal is an escaped one, and no literal opens behind it either. -/
theorem Keeps.behind_quote (h : s.Keeps (c :: t)) (hs : s.quote = none) (hc : Text.isQuote c) :
    QuoteState.code.Keeps t := by
  obtain ⟨hstep, ht⟩ := keeps_cons.mp h
  obtain ⟨quote, escaped⟩ := s
  obtain rfl : quote = none := hs
  cases escaped with
  | true => exact ht
  | false => simp [step, Text.ne_backslash_of_isQuote hc, hc] at hstep

section Plain

variable {d : Char} {v x : Text} (hs : s.IsProper) (hescaped : s.escaped = false)
  (hv : ∀ c ∈ v, BraceState.isPlain c) (hd : (s.step d).quote ≠ s.quote)

include hs hescaped hv hd

/-- Behind plain text, a quote opens or closes a literal as it would in front of the text. -/
theorem not_keeps_plain : ¬ s.Keeps (v ++ d :: x) := by
  intro h
  have hright := h.run_of_append
  rw [run_of_isPlain hv hs hescaped] at hright
  exact hd (keeps_cons.mp hright).1

/-- So a text along which none opens or closes, up to a quote, is the plain text up to such a
quote. -/
theorem Keeps.eq_plain {e : Char} {w y : Text} (hw : s.Keeps w) (he : Text.isQuote e)
    (h : w ++ e :: y = v ++ d :: x) : w = v ∧ e = d ∧ y = x := by
  rcases Text.append_eq_append_cases h with ⟨z, rfl, hz⟩ | ⟨z, hne, rfl, hz⟩
  · cases z with
    | nil => simpa using hz
    | cons f z =>
        obtain ⟨rfl, -⟩ := List.cons.inj hz
        exact absurd he (Listener.not_isQuote_of_isPlain (hv e (by simp)))
  · obtain ⟨f, z, rfl⟩ := List.exists_cons_of_ne_nil hne
    obtain ⟨rfl, -⟩ := List.cons.inj hz
    exact absurd hw (not_keeps_plain hs hescaped hv hd)

end Plain

end QuoteState

/-! ### The first literal -/

/-- A literal of a text: what stands in front of it, its quote, what it holds, and what stands
behind it. -/
structure Literal where
  before : Text
  quote : Char
  content : Text
  after : Text
  deriving Repr, DecidableEq

/-- The text from the opening quote of the literal on, that quote aside. -/
def Literal.inside (l : Literal) : Text := l.content ++ l.quote :: l.after

/-- What a literal holds in which the scan is, and what stands behind it. `passed` holds the
characters so far, last one first. -/
def closeLiteral (s : QuoteState) (passed : Text) : Text → Option (Text × Text)
  | [] => none
  | c :: t =>
    if s.step c = .code then some (passed.reverse, t) else closeLiteral (s.step c) (c :: passed) t

/-- The first literal that a scan comes to, with the characters so far in `passed`, last one
first. -/
def firstLiteralFrom (s : QuoteState) (passed : Text) : Text → Option Literal
  | [] => none
  | c :: t =>
    if (s.step c).quote.isSome then
      (closeLiteral (s.step c) [] t).map fun parts => ⟨passed.reverse, c, parts.1, parts.2⟩
    else firstLiteralFrom (s.step c) (c :: passed) t

/-- The first literal of a text. -/
def firstLiteral? (t : Text) : Option Literal := firstLiteralFrom .code [] t

/-- The text is cut at its first literal. -/
structure IsFirstLiteral (t : Text) (l : Literal) : Prop where
  text : t = l.before ++ l.quote :: l.inside
  isQuote : Text.isQuote l.quote
  before : QuoteState.code.Keeps l.before
  content : QuoteState.Keeps ⟨some l.quote, false⟩ l.content

theorem ne_code_of_quote {q : Char} {s : QuoteState} (hs : s.quote = some q) : s ≠ .code := by
  rintro rfl
  cases hs

theorem closeLiteral_eq_some {q : Char} {s : QuoteState} {passed t content after : Text}
    (hs : s.quote = some q) (h : closeLiteral s passed t = some (content, after)) :
    ∃ u, content = passed.reverse ++ u ∧ t = u ++ q :: after ∧ s.Keeps u := by
  induction t generalizing s passed with
  | nil => cases h
  | cons c t ih =>
      rw [closeLiteral] at h
      rcases QuoteState.step_of_literal hs c with ⟨rfl, hcode⟩ | hstep
      · rw [if_pos hcode] at h
        cases h
        exact ⟨[], (List.append_nil _).symm, rfl, QuoteState.keeps_nil⟩
      · rw [if_neg (ne_code_of_quote hstep)] at h
        obtain ⟨u, rfl, rfl, hu⟩ := ih hstep h
        exact ⟨c :: u, by simp, rfl, QuoteState.keeps_cons.mpr ⟨hstep.trans hs.symm, hu⟩⟩

/-- A literal that is not closed goes on to the end of the text. -/
theorem closeLiteral_eq_none {q : Char} {s : QuoteState} {passed t : Text} (hs : s.quote = some q)
    (h : closeLiteral s passed t = none) : (s.run t).quote = some q := by
  induction t generalizing s passed with
  | nil => exact hs
  | cons c t ih =>
      rw [closeLiteral] at h
      rcases QuoteState.step_of_literal hs c with ⟨-, hcode⟩ | hstep
      · rw [if_pos hcode] at h
        cases h
      · rw [if_neg (ne_code_of_quote hstep)] at h
        exact ih hstep h

theorem firstLiteralFrom_eq_some {s : QuoteState} {passed t : Text} {l : Literal}
    (hs : s.quote = none) (h : firstLiteralFrom s passed t = some l) :
    ∃ u, l.before = passed.reverse ++ u ∧ t = u ++ l.quote :: l.inside ∧ Text.isQuote l.quote ∧
      s.Keeps u ∧ QuoteState.Keeps ⟨some l.quote, false⟩ l.content := by
  induction t generalizing s passed with
  | nil => cases h
  | cons c t ih =>
      rw [firstLiteralFrom] at h
      rcases QuoteState.step_of_code hs c with ⟨hquote, hopen⟩ | hstep
      · rw [hopen] at h
        obtain ⟨⟨content, after⟩, hclose, rfl⟩ := Option.map_eq_some_iff.mp h
        obtain ⟨u, rfl, rfl, hu⟩ := closeLiteral_eq_some rfl hclose
        exact ⟨[], (List.append_nil _).symm, rfl, hquote, QuoteState.keeps_nil, hu⟩
      · rw [hstep] at h
        obtain ⟨u, hbefore, rfl, hquote, hu, hcontent⟩ := ih hstep h
        exact ⟨c :: u, by simpa using hbefore, rfl, hquote,
          QuoteState.keeps_cons.mpr ⟨hstep.trans hs.symm, hu⟩, hcontent⟩

/-- Where a scan comes to no literal and ends in none, none is opened. -/
theorem firstLiteralFrom_eq_none {s : QuoteState} {passed t : Text} (hs : s.quote = none)
    (h : firstLiteralFrom s passed t = none) (hrun : (s.run t).quote = none) : s.Keeps t := by
  induction t generalizing s passed with
  | nil => exact QuoteState.keeps_nil
  | cons c t ih =>
      rw [firstLiteralFrom] at h
      rcases QuoteState.step_of_code hs c with ⟨-, hopen⟩ | hstep
      · rw [hopen] at h
        have hclose := closeLiteral_eq_none rfl (Option.map_eq_none_iff.mp h)
        rw [QuoteState.run_cons, hopen, hclose] at hrun
        cases hrun
      · rw [hstep] at h
        exact QuoteState.keeps_cons.mpr ⟨hstep.trans hs.symm, ih hstep h hrun⟩

theorem isFirstLiteral_of_firstLiteral? {t : Text} {l : Literal} (h : firstLiteral? t = some l) :
    IsFirstLiteral t l := by
  obtain ⟨u, hbefore, rfl, hquote, hu, hcontent⟩ := firstLiteralFrom_eq_some rfl h
  rw [List.reverse_nil, List.nil_append] at hbefore
  rw [← hbefore] at hu ⊢
  exact ⟨rfl, hquote, hu, hcontent⟩

/-! ### What the search reads -/

namespace Literal

/-- The attribute name that the literal holds. -/
def name? (l : Literal) : Option Text := Listener.attributeName? l.content

/-- The attribute name between the last quote of the kind in front of the literal, which is an
escaped one, and the opening quote. -/
def straddled? (l : Literal) : Option Text :=
  (Text.behindLast? l.quote l.before).bind Listener.attributeName?

/-- The search for a quoted name reads what the literal holds: no other name seems to be quoted in
front of it, and if the literal holds none, then none stands between quotes from inside the literal
on. -/
def IsRead (l : Literal) : Prop :=
  (∀ name ∈ l.straddled?, l.name? = some name) ∧
    (l.name? = none → ∀ inner, l.inside.Quotes inner → Listener.attributeName? inner = none)

end Literal

namespace Listener

variable {t : Text} {l : Literal}

theorem attribute?_cons (c : Char) (t : Text) :
    attribute? (c :: t) = (attributeAt? (c :: t)).or (attribute? t) := by
  rw [attribute?]
  cases attributeAt? (c :: t) <;> rfl

/-- The search finds a name if and only if one stands between two quotes of one kind. -/
theorem attribute?_eq_none_iff_quotes :
    attribute? t = none ↔ ∀ inner, t.Quotes inner → attributeName? inner = none := by
  constructor
  · rintro hnone inner ⟨w, q, rest, hq, rfl⟩
    cases hinner : attributeName? inner with
    | none => rfl
    | some name =>
        have hat : attributeAt? (q :: (inner ++ q :: rest)) = some (name, rest) :=
          attributeAt?_quoted hq hinner
        induction w with
        | nil =>
            rw [List.nil_append, attribute?_cons, hat] at hnone
            cases hnone
        | cons c w ih =>
            rw [List.cons_append, attribute?_cons, Option.or_eq_none_iff] at hnone
            exact ih hnone.2
  · intro hall
    cases hname : attribute? t with
    | none => rfl
    | some found =>
        obtain ⟨w, after, rfl, hat⟩ := attribute?_eq_some hname
        obtain ⟨q, inner, rfl, hq, hinner⟩ := attributeAt?_eq_some_iff.mp hat
        have hnone := hall inner ⟨w, q, found.2, hq, rfl⟩
        rw [hinner] at hnone
        cases hnone

/-- At the opening quote of the first literal, the search reads the name that the literal holds. -/
theorem attributeAt?_literal (h : IsFirstLiteral t l) :
    attributeAt? (l.quote :: l.inside) = l.name?.map (·, l.after) := by
  cases hname : l.name? with
  | some name => exact attributeAt?_quoted h.isQuote hname
  | none =>
      cases hat : attributeAt? (l.quote :: l.inside) with
      | none => rfl
      | some found =>
          obtain ⟨q, inner, htext, hq, hinner⟩ := attributeAt?_eq_some_iff.mp hat
          obtain ⟨rfl, htext⟩ := List.cons.inj htext
          obtain ⟨hcontent, -⟩ := h.content.eq_plain (QuoteState.isProper_literal hq) rfl
            (isPlain_of_attributeName? hinner) (QuoteState.literal_step_quote_ne hq) hq htext
          rw [Literal.name?, hcontent, hinner] at hname
          cases hname

/-- In front of it, the search reads a name behind an escaped quote that the opening quote of the
literal seems to close. -/
theorem attributeAt?_before (h : IsFirstLiteral t l) {w v : Text} {d : Char}
    (hbefore : l.before = w ++ d :: v) :
    attributeAt? (d :: (v ++ l.quote :: l.inside)) =
      if d = l.quote then (attributeName? v).map (·, l.inside) else none := by
  cases hat : attributeAt? (d :: (v ++ l.quote :: l.inside)) with
  | some found =>
      obtain ⟨q, inner, htext, hq, hinner⟩ := attributeAt?_eq_some_iff.mp hat
      obtain ⟨rfl, htext⟩ := List.cons.inj htext
      have hkeeps := h.before
      rw [hbefore] at hkeeps
      have hbehind := hkeeps.run_of_append.behind_quote hkeeps.of_append_left.run_quote hq
      obtain ⟨rfl, hquote, hrest⟩ := hbehind.eq_plain QuoteState.isProper_code rfl
        (isPlain_of_attributeName? hinner) (QuoteState.code_step_quote_ne hq) h.isQuote htext
      rw [if_pos hquote.symm, hinner, hrest]
      rfl
  | none =>
      split
      · rename_i hd
        subst hd
        cases hname : attributeName? v with
        | none => rfl
        | some name =>
            have hsome : attributeAt? (l.quote :: (v ++ l.quote :: l.inside)) =
                some (name, l.inside) := attributeAt?_quoted h.isQuote hname
            rw [hat] at hsome
            cases hsome
      · rfl

/-- The search goes over what stands in front of the first literal. -/
theorem attribute?_before (h : IsFirstLiteral t l) {w u : Text} (hbefore : l.before = w ++ u) :
    attribute? (u ++ l.quote :: l.inside) =
      (((Text.behindLast? l.quote u).bind attributeName?).map (·, l.inside)).or
        (attribute? (l.quote :: l.inside)) := by
  induction u generalizing w with
  | nil => rfl
  | cons d v ih =>
      have htail := ih (w := w ++ [d]) (by simpa using hbefore)
      rw [List.cons_append, attribute?_cons, attributeAt?_before h hbefore, htail,
        Text.behindLast?]
      by_cases hd : d = l.quote
      · rw [if_pos hd, if_pos hd]
        cases hname : attributeName? v with
        | none => cases Text.behindLast? l.quote v <;> simp [hname]
        | some name =>
            have hquote : l.quote ∉ v := fun hmem =>
              not_isQuote_of_isPlain (isPlain_of_attributeName? hname _ hmem) h.isQuote
            simp [Text.behindLast?_eq_none hquote, hname]
      · rw [if_neg hd, if_neg hd]
        simp

/-- The search takes the name that seems to be quoted in front of the first literal, or else the one
that the literal holds, or else the first that is found from inside the literal on. -/
theorem attribute?_eq (h : IsFirstLiteral t l) :
    attribute? t = (l.straddled?.map (·, l.inside)).or
      ((l.name?.map (·, l.after)).or (attribute? l.inside)) := by
  have hbefore := attribute?_before h (w := []) rfl
  rw [attribute?_cons, attributeAt?_literal h, ← h.text] at hbefore
  exact hbefore

/-- A text without literals has no quoted name. -/
theorem attribute?_eq_none (hlit : firstLiteral? t = none) (hrun : QuoteState.code.run t = .code) :
    attribute? t = none := by
  have hkeeps : QuoteState.code.Keeps t := firstLiteralFrom_eq_none rfl hlit (by rw [hrun]; rfl)
  refine attribute?_eq_none_iff_quotes.mpr ?_
  rintro inner ⟨w, q, rest, hq, rfl⟩
  cases hinner : attributeName? inner with
  | none => rfl
  | some name =>
      have hbehind := hkeeps.run_of_append.behind_quote hkeeps.of_append_left.run_quote hq
      exact absurd hbehind (QuoteState.not_keeps_plain QuoteState.isProper_code rfl
        (isPlain_of_attributeName? hinner) (QuoteState.code_step_quote_ne hq))

theorem attribute?_eq_fst (h : IsFirstLiteral t l) :
    (attribute? t).map Prod.fst =
      l.straddled?.or (l.name?.or ((attribute? l.inside).map Prod.fst)) := by
  rw [attribute?_eq h]
  simp [Option.map_or, Function.comp_def]

/-- The attribute is what the first literal holds if and only if that literal is read. -/
theorem attribute?_eq_name?_iff (h : IsFirstLiteral t l) :
    (attribute? t).map Prod.fst = l.name? ↔ l.IsRead := by
  rw [attribute?_eq_fst h, Literal.IsRead, ← attribute?_eq_none_iff_quotes]
  cases l.straddled? with
  | none => cases l.name? <;> simp
  | some name => cases l.name? <;> simp [eq_comm]

/-- Nothing is read if and only if the first literal, if there is one, holds no name and is read. -/
theorem attribute?_eq_none_iff (hrun : QuoteState.code.run t = .code) :
    attribute? t = none ↔ ∀ l, firstLiteral? t = some l → l.name? = none ∧ l.IsRead := by
  cases hlit : firstLiteral? t with
  | none =>
      refine iff_of_true (attribute?_eq_none hlit hrun) ?_
      rintro l ⟨⟩
  | some l =>
      have hfirst := isFirstLiteral_of_firstLiteral? hlit
      have hiff := attribute?_eq_name?_iff hfirst
      constructor
      · rintro hnone _ ⟨⟩
        have hname : l.name? = none := by
          rw [attribute?_eq hfirst, Option.or_eq_none_iff, Option.or_eq_none_iff] at hnone
          exact Option.map_eq_none_iff.mp hnone.2.1
        exact ⟨hname, hiff.mp (by rw [hnone, hname]; rfl)⟩
      · intro hspec
        obtain ⟨hname, hread⟩ := hspec l rfl
        exact Option.map_eq_none_iff.mp ((hiff.mpr hread).trans hname)

end Listener

/-! ### The attributes of a script's listeners -/

/-- All literals between the parenthesis of a call and its handler block are closed. -/
theorem Handler.run_inside {marker text : Text} {call : Call} {h : Handler}
    (hcall : callAt? marker text = some call) (hh : handler? call.args = .ok (some h)) :
    QuoteState.code.run (h.args.drop 1) = .code := by
  obtain ⟨-, hwalk, -⟩ := handler?_eq_some_iff.mp hh
  have hrun := hwalk.run_quotes
  rw [Handler.args_eq_cons hcall hh] at hrun
  exact hrun

namespace Listener

variable {v : Vocabulary}

/-- A listener that is made of a call with literals has its attribute from where the search finds
one. -/
theorem IsMadeBy.observed_eq {c : Cut} {l : Listener} {text : Text}
    (hcall : callAt? v.listenerToken text = some c.call)
    (hh : handler? c.call.args = .ok (some c.handler)) (hl : IsMadeBy v c l) :
    ∃ literal, firstLiteral? (c.handler.args.drop 1) = some literal ∧
      some l.observed = literal.straddled?.or (literal.name?.or
        ((attribute? literal.inside).map Prod.fst)) ∧
      (literal.name? = some l.observed ↔ literal.IsRead) := by
  obtain ⟨observed, rest, names, hattribute, -, hfound⟩ := ofHandler_eq_ok hl
  obtain rfl : l.observed = observed := by rw [Found.mk.injEq] at hfound; rw [hfound.2.2]
  cases hlit : firstLiteral? (c.handler.args.drop 1) with
  | none =>
      rw [attribute?_eq_none hlit (Handler.run_inside hcall hh)] at hattribute
      cases hattribute
  | some literal =>
      have hfirst := isFirstLiteral_of_firstLiteral? hlit
      have hiff := attribute?_eq_name?_iff hfirst
      have hread := attribute?_eq_fst hfirst
      rw [hattribute] at hiff hread
      exact ⟨literal, rfl, hread, by rw [← hiff]; exact eq_comm⟩

/-- A call without stray arguments has no attribute if and only if its first literal is read and
holds no name. -/
theorem ofCall_eq_withoutAttribute_iff {text : Text} {call : Call} {h : Handler} {g : Fault}
    (hcall : callAt? v.listenerToken text = some call) (hh : handler? call.args = .ok (some h))
    (hstray : strayArgument? h.rest = none) (hg : ofCall v call = .error g) :
    g = ⟨.listenerWithoutAttribute v.listenerToken, Text.byteSize call.head + 1⟩ ↔
      ∀ literal, firstLiteral? (h.args.drop 1) = some literal →
        literal.name? = none ∧ literal.IsRead := by
  rw [← attribute?_eq_none_iff (Handler.run_inside hcall hh)]
  rw [ofCall, hh] at hg
  dsimp only at hg
  rw [ofHandler, hstray] at hg
  dsimp only at hg
  split at hg
  · rename_i hnone
    cases hg
    exact iff_of_true rfl hnone
  · rename_i hsome
    rw [hsome]
    split at hg
    · cases hg
      simp
    · cases hg

end Listener

/-- Each listener of a script has the attribute name that is found first: in front of the first
literal of its call, between an escaped quote and the literal's own, or in the literal, or from
inside the literal on. It has the name that the first literal holds if and only if that literal is
read. Where lifting fails in a call without stray arguments, the attribute is what is missing if and
only if the first literal of the call, if there is one, is read and holds no name. -/
theorem liftListeners_observed (v : Vocabulary) (script : Text) :
    match liftListeners v script with
    | .ok x => ∃ cuts last, ListenerCuts v script x cuts last ∧
        List.Forall₂ (fun c l =>
          ∃ literal, firstLiteral? (c.handler.args.drop 1) = some literal ∧
            some l.observed = literal.straddled?.or (literal.name?.or
              ((Listener.attribute? literal.inside).map Prod.fst)) ∧
            (literal.name? = some l.observed ↔ literal.IsRead)) cuts x.listeners
    | .error f => ∃ cuts gap rest call g, ListenerFault v script f cuts gap rest call g ∧
        ∀ h, handler? call.args = .ok (some h) → strayArgument? h.rest = none →
          (g = ⟨.listenerWithoutAttribute v.listenerToken, Text.byteSize call.head + 1⟩ ↔
            ∀ literal, firstLiteral? (h.args.drop 1) = some literal →
              literal.name? = none ∧ literal.IsRead) := by
  cases hlift : liftListeners v script with
  | ok x =>
      obtain ⟨cuts, last, hcuts⟩ := listenerCuts_of_liftListeners hlift
      refine ⟨cuts, last, hcuts, ?_⟩
      exact hcuts.through.forall₂_of_made hcuts.made fun hcall hh hl => hl.observed_eq hcall hh
  | error f =>
      obtain ⟨cuts, gap, rest, call, g, hg⟩ := listenerFault_of_liftListeners hlift
      refine ⟨cuts, gap, rest, call, g, hg, fun h hh hstray => ?_⟩
      exact Listener.ofCall_eq_withoutAttribute_iff hg.called hh hstray hg.fault

/-- The first literal holds no name here, and the name is taken from the second one. -/
example : (firstLiteral? "\"my attr\", \"b\", v => ".toList).map Literal.name? = some none ∧
    (liftListeners .standard "addChangeListener(\"my attr\", \"b\", v => \x7b\x7d)".toList).map
      (·.listeners.map Listener.observed) = .ok ["b".toList] := by decide

/-- Here it holds a name, and the one in front of it is taken. -/
example : (firstLiteral? "\\\"a\"b\", v => ".toList).map (fun l => (l.straddled?, l.name?)) =
    some (some "a".toList, some "b".toList) := by decide

end ElementScript
