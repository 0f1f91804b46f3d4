import ElementScript.Proofs.Listener.Tokens
import ElementScript.Proofs.Scan.Call

/-!
# Renaming a body that has been renamed

Where names are replaced by names, the new body differs from the old one in how some words are
spelled (`Respelled`). The lexer does not see the difference: it looks around a word for dots,
braces, commas and colons, and no name has one of them at either end. So the tokens of the new body
are those of the old one, respelled (`cut_renameReferences`), and to rename it once more is to
rename the old body by composed pairs (`renameReferences_renameReferences`).
-/

namespace ElementScript

/-! ### Texts that differ in the spelling of words -/

/-- No identifier begins with a digit. -/
theorem Text.not_isDigit_of_isIdentifier {c : Char} {t : Text} (h : isIdentifier (c :: t)) :
    ¬ c.isDigit := by
  intro hdigit
  obtain ⟨hleft, hright⟩ := Bool.and_eq_true_iff.mp hdigit
  have hle : 48 ≤ c.toNat := of_decide_eq_true hleft
  have hge : c.toNat ≤ 57 := of_decide_eq_true hright
  have hstart := (Bool.and_eq_true_iff.mp h).1
  simp only [isIdentifierStart, Bool.or_eq_true, beq_iff_eq] at hstart
  rcases hstart with (halpha | rfl) | rfl
  · rcases Bool.or_eq_true_iff.mp halpha with hupper | hlower
    · have hrange : 65 ≤ c.toNat ∧ c.toNat ≤ 90 := of_decide_eq_true hupper
      omega
    · have hrange : 97 ≤ c.toNat := of_decide_eq_true (Bool.and_eq_true_iff.mp hlower).1
      omega
  · revert hdigit
    decide
  · revert hdigit
    decide

/-- A word in ASCII, of characters that an identifier may go on with. -/
def Text.IsPlainWord (w : Text) : Prop := w ≠ [] ∧ ∀ c ∈ w, isIdentifierPart c

theorem Text.beq_mark {mark c : Char} (hmark : ¬ isIdentifierPart mark) (hc : isIdentifierPart c) :
    (c == mark) = false := by
  rw [beq_eq_false_iff_ne]
  intro heq
  exact hmark (heq ▸ hc)

/-- The texts differ in nothing but the spelling of plain words. -/
inductive Respelled : Text → Text → Prop where
  | nil : Respelled [] []
  | keep (c : Char) {t u : Text} (rest : Respelled t u) : Respelled (c :: t) (c :: u)
  | word {w w' t u : Text} (hw : w.IsPlainWord) (hw' : w'.IsPlainWord) (rest : Respelled t u) :
      Respelled (w ++ t) (w' ++ u)

namespace Respelled

variable {t u : Text} {p : Char → Bool}

theorem append_left (h : Respelled t u) (s : Text) : Respelled (s ++ t) (s ++ u) := by
  induction s with
  | nil => exact h
  | cons c s ih => exact .keep c ih

/-- The first characters are of the same kind, for kinds that do not tell the characters of
identifiers apart. -/
theorem head?_any (h : Respelled t u)
    (hp : ∀ c d, Text.isIdentifierPart c → Text.isIdentifierPart d → p c = p d) :
    t.head?.any p = u.head?.any p := by
  cases h with
  | nil => rfl
  | keep c rest => rfl
  | word hw hw' rest =>
      obtain ⟨c, w, rfl⟩ := List.exists_cons_of_ne_nil hw.1
      obtain ⟨d, w', rfl⟩ := List.exists_cons_of_ne_nil hw'.1
      exact hp c d (hw.2 c List.mem_cons_self) (hw'.2 d List.mem_cons_self)

/-- So are the first ones behind blanks. -/
theorem head?_trimStart_any (h : Respelled t u)
    (hp : ∀ c d, Text.isIdentifierPart c → Text.isIdentifierPart d → p c = p d) :
    (Text.trimStart t).head?.any p = (Text.trimStart u).head?.any p := by
  have hname {c : Char} (w t : Text) (hc : Text.isIdentifierPart c) :
      Text.trimStart (c :: w ++ t) = c :: w ++ t :=
    List.dropWhile_cons_of_neg (Text.not_isBlank_of_isIdentifierPart hc)
  induction h with
  | nil => rfl
  | keep c rest ih =>
      by_cases hc : Text.isBlank c
      · simpa [Text.trimStart, hc] using ih
      · simp [Text.trimStart, hc]
  | word hw hw' rest =>
      obtain ⟨c, w, rfl⟩ := List.exists_cons_of_ne_nil hw.1
      obtain ⟨d, w', rfl⟩ := List.exists_cons_of_ne_nil hw'.1
      have hc := hw.2 c List.mem_cons_self
      have hd := hw'.2 d List.mem_cons_self
      rw [hname w _ hc, hname w' _ hd]
      exact hp c d hc hd

/-- A run of characters that stand in no identifier is the same in both. -/
theorem takeWhile_eq (h : Respelled t u) (hp : ∀ c, Text.isIdentifierPart c → ¬ p c) :
    t.takeWhile p = u.takeWhile p := by
  induction h with
  | nil => rfl
  | keep c rest ih => simp only [List.takeWhile_cons, ih]
  | word hw hw' rest =>
      obtain ⟨c, w, rfl⟩ := List.exists_cons_of_ne_nil hw.1
      obtain ⟨d, w', rfl⟩ := List.exists_cons_of_ne_nil hw'.1
      rw [List.cons_append, List.cons_append,
        List.takeWhile_cons_of_neg (hp c (hw.2 c List.mem_cons_self)),
        List.takeWhile_cons_of_neg (hp d (hw'.2 d List.mem_cons_self))]

/-- A mark that stands in no identifier begins both texts or none. -/
theorem head?_eq_some_iff (h : Respelled t u) {mark : Char}
    (hmark : ¬ Text.isIdentifierPart mark) : t.head? = some mark ↔ u.head? = some mark := by
  have hany (t : Text) : t.head? = some mark ↔ t.head?.any (· == mark) := by
    cases t <;> simp
  rw [hany t, hany u, h.head?_any]
  intro c d hc hd
  rw [Text.beq_mark hmark hc, Text.beq_mark hmark hd]

/-- If one of the texts is empty, both are. -/
theorem eq_nil (h : Respelled [] u) : u = [] := by
  have hany := h.head?_any (p := fun _ => true) fun _ _ _ _ => rfl
  cases u with
  | nil => rfl
  | cons c u => cases hany

end Respelled

/-- The spellings of one word, plain or the same. -/
def Text.SpellsLike (w w' : Text) : Prop := w = w' ∨ w.IsPlainWord ∧ w'.IsPlainWord

theorem Text.SpellsLike.reverse {w w' : Text} (h : w.SpellsLike w') :
    SpellsLike w.reverse w'.reverse := by
  have hreverse {w : Text} (hw : w.IsPlainWord) : IsPlainWord w.reverse :=
    ⟨by simpa using hw.1, fun c hc => hw.2 c (List.mem_reverse.mp hc)⟩
  rcases h with rfl | ⟨hw, hw'⟩
  · exact Or.inl rfl
  · exact Or.inr ⟨hreverse hw, hreverse hw'⟩

theorem Respelled.append {w w' t u : Text} (hw : w.SpellsLike w') (h : Respelled t u) :
    Respelled (w ++ t) (w' ++ u) := by
  rcases hw with rfl | ⟨hw, hw'⟩
  · exact h.append_left w
  · exact .word hw hw' h

/-! ### What the lexer sees of it -/

namespace CodeToken

/-- One dot makes a word behind it a property, and so do two; three are a spread. -/
theorem followsDot_eq (before : Text) :
    followsDot before =
      (let dots := (before.takeWhile (· == '.')).length; dots == 1 || dots == 2) := by
  unfold followsDot
  split
  · simp
  · rename_i rest hspread
    cases rest with
    | nil => rfl
    | cons c rest =>
        by_cases hc : c = '.'
        · subst hc
          cases rest with
          | nil => rfl
          | cons d rest =>
              have hd : d ≠ '.' := fun hd => hspread rest (hd ▸ rfl)
              simp [hd]
        · simp [hc]
  · rename_i hspread hdot
    cases before with
    | nil => rfl
    | cons c before =>
        have hc : c ≠ '.' := fun hc => hdot before (hc ▸ rfl)
        simp [hc]

theorem isKey_eq (before after : Text) :
    isKey before after = ((Text.trimStart after).head?.any (· == ':') &&
      (Text.trimStart before).head?.any fun c => c == '{' || c == ',') := by
  unfold isKey
  congr 1
  · cases Text.trimStart after with
    | nil => rfl
    | cons c t =>
        by_cases hc : c = ':'
        · subst hc
          rfl
        · simp [hc]
  · cases Text.trimStart before with
    | nil => rfl
    | cons c t =>
        by_cases hopen : c = '{'
        · subst hopen
          rfl
        · by_cases hcomma : c = ','
          · subst hcomma
            rfl
          · simp [hopen, hcomma]

/-- What stands around a word makes it a reference or not, however the text around is spelled. -/
theorem isReference_respelled {before before' after after' : Text}
    (hbefore : Respelled before before') (hafter : Respelled after after') :
    (followsDot before || isKey before after) = (followsDot before' || isKey before' after') := by
  have hdots := hbefore.takeWhile_eq (p := (· == '.')) fun c hc => by
    rw [Text.beq_mark (by decide) hc]
    exact Bool.false_ne_true
  have hcolon := hafter.head?_trimStart_any (p := (· == ':')) fun c d hc hd => by
    rw [Text.beq_mark (by decide) hc, Text.beq_mark (by decide) hd]
  have hopen := hbefore.head?_trimStart_any (p := fun c => c == '{' || c == ',')
    fun c d hc hd => by
      rw [Text.beq_mark (by decide) hc, Text.beq_mark (by decide) hd,
        Text.beq_mark (by decide) hc, Text.beq_mark (by decide) hd]
  rw [followsDot_eq, followsDot_eq, isKey_eq, isKey_eq, hdots, hcolon, hopen]

/-! ### Respelled tokens -/

/-- The token with another name, if it is a reference. -/
def respell (renames : List (Text × Text)) : CodeToken → CodeToken
  | fixed text => fixed text
  | reference name => reference (substitute renames name)

theorem text_respell (renames : List (Text × Text)) (token : CodeToken) :
    (respell renames token).text = token.rename renames := by
  cases token <;> rfl

section

variable {renames : List (Text × Text)}
  (hrenames : ∀ pair ∈ renames, Text.isIdentifier pair.1 ∧ Text.isIdentifier pair.2)

include hrenames

/-- A name is kept, or an identifier makes way for an identifier. -/
theorem substitute_cases (name : Text) :
    substitute renames name = name ∨
      Text.isIdentifier name ∧ Text.isIdentifier (substitute renames name) := by
  unfold substitute
  cases hlookup : renames.lookup name with
  | none => exact Or.inl rfl
  | some new =>
      obtain ⟨before, after, rfl, -⟩ := List.lookup_eq_some_iff.mp hlookup
      exact Or.inr (hrenames (name, new) List.mem_append_cons_self)

theorem spellsLike_respell (token : CodeToken) :
    token.text.SpellsLike (respell renames token).text := by
  have hplain {t : Text} (h : Text.isIdentifier t) : t.IsPlainWord :=
    ⟨Text.ne_nil_of_isIdentifier h, Text.isIdentifierPart_of_mem h⟩
  cases token with
  | fixed text => exact Or.inl rfl
  | reference name =>
      rcases substitute_cases hrenames name with hsame | ⟨hname, hnew⟩
      · exact Or.inl hsame.symm
      · exact Or.inr ⟨hplain hname, hplain hnew⟩

/-- What comes next in a text comes next, respelled, in the respelled text. -/
theorem IsNext.isNext_respell {before before' w t u : Text} {p q : CodePlace} {token : CodeToken}
    (h : IsNext before p w t token q) (hbefore : Respelled before before') (ht : Respelled t u) :
    IsNext before' p (token.respell renames).text u (token.respell renames) q := by
  have hsame {p : Char → Bool}
      (hp : ∀ c d, Text.isIdentifierPart c → Text.isIdentifierPart d → p c = p d)
      (hrest : ¬ t.head?.any p) : ¬ u.head?.any p := by
    rwa [← ht.head?_any hp]
  cases h with
  | @escape _ _ w _ hw =>
      refine .escape ?_
      cases w with
      | nil =>
          have hnil : t = [] := by simpa using hw
          rw [hnil] at ht
          rw [ht.eq_nil]
          rfl
      | cons d w => simpa using hw
  | closeQuote hquote => exact .closeQuote hquote
  | openSubstitution => exact .openSubstitution
  | literal hslash hquote hopen =>
      refine .literal hslash hquote ?_
      rwa [← ht.head?_eq_some_iff (by decide)]
  | openQuote hquote => exact .openQuote hquote
  | openBrace => exact .openBrace
  | closeBrace hdepth => exact .closeBrace hdepth
  | closeSubstitution => exact .closeSubstitution
  | number hc hw hrest =>
      refine .number hc hw (hsame ?_ hrest)
      intro c d hc hd
      simp [isNumberPart, isWordPart, hc, hd]
  | @word depth outer c w _ hc hword hrest =>
      have hrest' : ¬ u.head?.any isWordPart := by
        refine hsame ?_ hrest
        intro c d hc hd
        simp [isWordPart, hc, hd]
      have hkept : IsNext before' ⟨.code depth, outer⟩ (c :: w) u (ofWord before' (c :: w) u)
          ⟨.code depth, outer⟩ := .word hc hword hrest'
      have hflags := isReference_respelled hbefore ht
      rw [ofWord, ← hflags] at hkept
      rw [ofWord]
      by_cases hfixed : followsDot before || isKey before t
      · rw [if_pos hfixed] at hkept ⊢
        exact hkept
      · rw [if_neg hfixed] at hkept ⊢
        show IsNext before' _ (substitute renames (c :: w)) u
          (reference (substitute renames (c :: w))) _
        rcases substitute_cases hrenames (c :: w) with hsame | ⟨-, hnew⟩
        · rw [hsame]
          exact hkept
        · -- The new name is a word too, and it stands where the old one stood.
          generalize substitute renames (c :: w) = name at hnew
          have hparts := fun d hd => isWordPart_of_isIdentifierPart
            (Text.isIdentifierPart_of_mem hnew d hd)
          cases name with
          | nil => cases hnew
          | cons c' w' =>
              have hdigit : ¬ c'.isDigit := Text.not_isDigit_of_isIdentifier hnew
              have hrenamed : IsNext before' ⟨.code depth, outer⟩ (c' :: w') u
                  (ofWord before' (c' :: w') u) ⟨.code depth, outer⟩ := .word hdigit hparts hrest'
              rw [ofWord, ← hflags, if_neg hfixed] at hrenamed
              exact hrenamed
  | mark hquote hopen hclose hdigit hword => exact .mark hquote hopen hclose hdigit hword

/-- A text is respelled by respelling its tokens. -/
theorem Lexed.respelled_text {cutter : Cutter} {p : CodePlace} {before t : Text}
    {tokens : List (CodePlace × CodeToken)} (h : Lexed cutter p before t tokens) :
    Respelled t (tokens.flatMap fun x => (x.2.respell renames).text) := by
  induction h with
  | nil => exact .nil
  | token hnext htext behind ih =>
      rw [List.flatMap_cons, ← List.cons_append, ← htext]
      exact ih.append (spellsLike_respell hrenames _)

/-- The tokens of the respelled text are the respelled tokens. -/
theorem Lexed.lexed_respell {p : CodePlace} {before before' t : Text}
    {tokens : List (CodePlace × CodeToken)} (h : Lexed next p before t tokens)
    (hbefore : Respelled before before') :
    Lexed next p before' (tokens.flatMap fun x => (x.2.respell renames).text)
      (tokens.map fun x => (x.1, x.2.respell renames)) := by
  induction h generalizing before' with
  | nil => exact .nil
  | @token p q before w t c token tokens hnext htext behind ih =>
      have hrespelled := (next_eq_iff.mp ⟨hnext, htext⟩).isNext_respell hrenames hbefore
        (behind.respelled_text hrenames)
      have hbefore' := Respelled.append (spellsLike_respell hrenames token).reverse hbefore
      obtain ⟨c', w', htext'⟩ := List.exists_cons_of_ne_nil hrespelled.ne_nil
      rw [htext'] at hrespelled hbefore'
      rw [htext] at hbefore'
      rw [List.flatMap_cons, htext', List.cons_append]
      exact .token (next_of_isNext hrespelled) htext' (ih (by simpa using hbefore'))

/-- The tokens of a renamed body are those of the body, with the references respelled. -/
theorem cut_renameReferences (body : Text) :
    cut (renameReferences renames body) = (cut body).map (respell renames) := by
  have hlexed := lexed_lexFrom isCutOff_next .top [] body
  have hbody : renameReferences renames body =
      (lexFrom next .top 0 [] body).flatMap fun x => (x.2.respell renames).text := by
    rw [renameReferences, cut_eq_lexFrom, List.flatMap_map]
    simp only [text_respell]
  have hrespelled := (hlexed.lexed_respell hrenames .nil).eq_lexFrom
  rw [← hbody] at hrespelled
  rw [cut_eq_lexFrom, ← hrespelled, cut_eq_lexFrom, List.map_map, List.map_map]
  rfl

end

/-! ### Composed pairs -/

/-- Pairs that do at once what two lists of pairs do one after the other. -/
def composed (first second : List (Text × Text)) : List (Text × Text) :=
  first.map (fun pair => (pair.1, substitute second pair.2)) ++ second

theorem substitute_composed (first second : List (Text × Text)) (name : Text) :
    substitute (composed first second) name = substitute second (substitute first name) := by
  unfold composed
  induction first with
  | nil => rfl
  | cons pair first ih =>
      obtain ⟨old, new⟩ := pair
      by_cases hname : name = old
      · subst hname
        simp [substitute]
      · have hne : (name == old) = false := by simpa using hname
        simpa [substitute, List.lookup_cons, hne] using ih

/-- Two names swapped twice are as they were. -/
theorem substitute_swap_swap (x y name : Text) :
    substitute [(x, y), (y, x)] (substitute [(x, y), (y, x)] name) = name := by
  by_cases hx : name = x
  · subst hx
    by_cases hy : y = name
    · subst hy
      simp [substitute]
    · have hne : (y == name) = false := by simpa using hy
      simp [substitute, List.lookup_cons, hne]
  · have hnex : (name == x) = false := by simpa using hx
    by_cases hy : name = y
    · subst hy
      simp [substitute, List.lookup_cons, hnex]
    · have hney : (name == y) = false := by simpa using hy
      simp [substitute, List.lookup_cons, hnex, hney]

theorem renameReferences_of_substitute_eq_self {renames : List (Text × Text)}
    (h : ∀ name, substitute renames name = name) (body : Text) :
    renameReferences renames body = body := by
  have htext : rename renames = text := by
    funext token
    cases token with
    | fixed text => rfl
    | reference name => exact h name
  rw [renameReferences, htext, flatMap_text_cut]

end CodeToken

open CodeToken

/-- Renaming by identifiers and then once more is renaming once by the composed pairs. In
particular, two names that are swapped twice are as they were. -/
theorem renameReferences_renameReferences :
    (∀ first second : List (Text × Text),
      (∀ pair ∈ first, Text.isIdentifier pair.1 ∧ Text.isIdentifier pair.2) → ∀ body : Text,
        renameReferences second (renameReferences first body) =
          renameReferences (composed first second) body) ∧
      ∀ x y : Text, Text.isIdentifier x → Text.isIdentifier y → ∀ body : Text,
        renameReferences [(x, y), (y, x)] (renameReferences [(x, y), (y, x)] body) = body := by
  have hcompose (first second : List (Text × Text))
      (hfirst : ∀ pair ∈ first, Text.isIdentifier pair.1 ∧ Text.isIdentifier pair.2)
      (body : Text) : renameReferences second (renameReferences first body) =
        renameReferences (composed first second) body := by
    have htoken (token : CodeToken) :
        rename second (respell first token) = rename (composed first second) token := by
      cases token with
      | fixed text => rfl
      | reference name => exact (substitute_composed first second name).symm
    rw [renameReferences, cut_renameReferences hfirst, List.flatMap_map, renameReferences]
    simp only [htoken]
  refine ⟨hcompose, ?_⟩
  intro x y hx hy body
  have hswap : ∀ pair ∈ [(x, y), (y, x)], Text.isIdentifier pair.1 ∧ Text.isIdentifier pair.2 := by
    simp [hx, hy]
  rw [hcompose _ _ hswap]
  refine renameReferences_of_substitute_eq_self ?_ body
  intro name
  rw [substitute_composed, substitute_swap_swap]

/-- A handler whose parameters get the names of the two values, and then swap them. -/
theorem renameReferences_renameReferences_swap :
    renameReferences [("x".toList, "y".toList), ("y".toList, "x".toList)]
        (renameReferences [("o".toList, "x".toList), ("n".toList, "y".toList)]
          "f(o, \x60$\x7bn\x7d\x60, e.n)".toList) = "f(y, \x60$\x7bx\x7d\x60, e.n)".toList ∧
      renameReferences [("o".toList, "n".toList), ("n".toList, "o".toList)]
        (renameReferences [("o".toList, "n".toList), ("n".toList, "o".toList)]
          "f(o, \x60$\x7bn\x7d\x60, e.n)".toList) = "f(o, \x60$\x7bn\x7d\x60, e.n)".toList := by
  refine ⟨?_, ?_⟩
  · rw [renameReferences_renameReferences.1 _ _ (by decide)]
    decide
  · exact renameReferences_renameReferences.2 _ _ (by decide) (by decide) _

end ElementScript
