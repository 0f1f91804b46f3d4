import ElementScript.Listener.Rename
import ElementScript.Proofs.Scan.Balance

/-!
# Renaming and the flat scanner

The lexer behind renaming knows of templates and their substitutions, the flat scanner does not, and
the two do not agree on what is code. They need not: tokens are cut out of the body without loss
(`CodeToken.flatMap_text_cut`), the only ones that are replaced are words
(`CodeToken.isWord_of_mem_cut`), and no character of a word means anything to the flat scanner. So
the scanner makes the same of a body and of what renaming makes of it
(`scansLike_renameReferences`).
-/

namespace ElementScript

/-! ### Texts that scan alike -/

namespace Text

open BraceState

/-- From any state, the flat scanner makes the same of both texts. -/
def ScansLike (t u : Text) : Prop :=
  ∀ s : BraceState, s.IsProper →
    s.run t = s.run u ∧ ∀ floor, s.StaysAbove floor t ↔ s.StaysAbove floor u

variable {t u t' u' : Text}

theorem ScansLike.refl (t : Text) : t.ScansLike t := fun _ _ => ⟨rfl, fun _ => Iff.rfl⟩

/-- Plain texts scan alike, unless one of them is empty. -/
theorem scansLike_of_isPlain (ht : ∀ c ∈ t, isPlain c) (hne : t ≠ []) (hu : ∀ c ∈ u, isPlain c)
    (hne' : u ≠ []) : t.ScansLike u := by
  intro s hs
  refine ⟨?_, fun floor => ?_⟩
  · rw [run_of_isPlain ht hne hs, run_of_isPlain hu hne' hs]
  · constructor
    · intro h
      exact staysAbove_of_isPlain hu hs h.le_depth
    · intro h
      exact staysAbove_of_isPlain ht hs h.le_depth

theorem ScansLike.append (h : t.ScansLike u) (h' : t'.ScansLike u') :
    (t ++ t').ScansLike (u ++ u') := by
  intro s hs
  obtain ⟨hrun, hstays⟩ := h s hs
  have hproper : (s.run u).IsProper := by
    rw [run_toQuoteState]
    exact hs.isProper_run u
  obtain ⟨hrun', hstays'⟩ := h' (s.run u) hproper
  refine ⟨?_, fun floor => ?_⟩
  · rw [run_append, run_append, hrun, hrun']
  · rw [staysAbove_append, staysAbove_append, hrun, hstays, hstays']

theorem scansLike_flatMap {α : Type} {f g : α → Text} {l : List α}
    (h : ∀ x ∈ l, (f x).ScansLike (g x)) : ScansLike (l.flatMap f) (l.flatMap g) := by
  induction l with
  | nil => exact .refl []
  | cons x l ih =>
      rw [List.flatMap_cons, List.flatMap_cons]
      exact (h x List.mem_cons_self).append (ih fun y hy => h y (List.mem_cons_of_mem x hy))

theorem ScansLike.isBalanced (h : t.ScansLike u) (ht : t.IsBalanced) : u.IsBalanced := by
  obtain ⟨hrun, hstays⟩ := h (atDepth 0) QuoteState.isProper_code
  exact ⟨(hstays 0).mp ht.1, hrun.symm.trans ht.2⟩

end Text

/-! ### Identifiers -/

namespace Text

variable {t : Text}

theorem ne_nil_of_isIdentifier (h : isIdentifier t) : t ≠ [] := by
  intro hnil
  rw [hnil] at h
  cases h

/-- What an identifier may begin with, it may also go on with. -/
theorem isIdentifierPart_of_mem (h : isIdentifier t) : ∀ c ∈ t, isIdentifierPart c := by
  cases t with
  | nil => cases h
  | cons c t =>
      rw [isIdentifier, Bool.and_eq_true, List.all_eq_true] at h
      obtain ⟨hstart, hparts⟩ := h
      refine List.forall_mem_cons.mpr ⟨?_, hparts⟩
      simp only [isIdentifierStart, Bool.or_eq_true] at hstart
      simp only [isIdentifierPart, Char.isAlphanum, Bool.or_eq_true]
      exact hstart.imp_left (Or.imp_left Or.inl)

end Text

theorem CodeToken.isWordPart_of_isIdentifierPart {c : Char} (h : Text.isIdentifierPart c) :
    isWordPart c := by
  rw [isWordPart, h, Bool.true_or]

/-! ### The tokens of a body -/

namespace CodeToken

/-- What a reference is made of. -/
def IsWord (name : Text) : Prop := name ≠ [] ∧ ∀ c ∈ name, isWordPart c

/-- No character of a word means anything to the flat scanner. -/
theorem isPlain_of_isWordPart {c : Char} (h : isWordPart c) : BraceState.isPlain c :=
  BraceState.isPlain_of_class (by decide) h

/-- The token is cut off the front of the text `c :: t`, and if it is a reference, it is a word. -/
structure IsCutOff (token : CodeToken) (c : Char) (t : Text) : Prop where
  front : ∃ w, w <+: t ∧ token.text = c :: w
  word : ∀ name, token = .reference name → IsWord name

variable {c : Char} {t w : Text}

theorem isCutOff_fixed (hw : w <+: t) : (fixed (c :: w)).IsCutOff c t := by
  refine ⟨⟨w, hw, rfl⟩, ?_⟩
  intro name hname
  cases hname

theorem isCutOff_nextInLiteral (p : CodePlace) (quote c : Char) (t : Text) :
    (nextInLiteral p quote c t).1.IsCutOff c t := by
  unfold nextInLiteral
  split
  · exact isCutOff_fixed (List.take_prefix 1 t)
  · split
    · exact isCutOff_fixed List.nil_prefix
    · split
      · rename_i hsubstitution
        obtain ⟨-, rfl, hbrace⟩ := hsubstitution
        obtain ⟨t', rfl⟩ := List.head?_eq_some_iff.mp hbrace
        exact isCutOff_fixed ⟨t', rfl⟩
      · exact isCutOff_fixed List.nil_prefix

theorem isCutOff_nextInCode (p : CodePlace) (depth : Nat) (before : Text) (c : Char) (t : Text) :
    (nextInCode p depth before c t).1.IsCutOff c t := by
  unfold nextInCode
  split
  · exact isCutOff_fixed List.nil_prefix
  · split
    · exact isCutOff_fixed List.nil_prefix
    · split
      · exact isCutOff_fixed List.nil_prefix
      · split
        · exact isCutOff_fixed (List.takeWhile_prefix _)
        · split
          · rename_i hc
            dsimp only
            split
            · exact isCutOff_fixed (List.takeWhile_prefix _)
            · refine ⟨⟨_, List.takeWhile_prefix _, rfl⟩, ?_⟩
              intro name hname
              cases hname
              refine ⟨List.cons_ne_nil c _, ?_⟩
              intro d hd
              rcases List.mem_cons.mp hd with rfl | hd
              · exact hc
              · exact List.all_eq_true.mp List.all_takeWhile d hd
          · exact isCutOff_fixed List.nil_prefix

theorem isCutOff_next (p : CodePlace) (before : Text) (c : Char) (t : Text) :
    (next p before c t).1.IsCutOff c t := by
  unfold next
  split
  · exact isCutOff_nextInLiteral ..
  · exact isCutOff_nextInCode ..

/-- The tokens, read one after the other, are the text that was cut. -/
theorem flatMap_text_cutFrom (p : CodePlace) (skip : Nat) (before : Text)
    (tokens : List CodeToken) (t : Text) :
    (cutFrom p skip before tokens t).flatMap text = tokens.reverse.flatMap text ++ t.drop skip := by
  induction t generalizing p skip before tokens with
  | nil => simp [cutFrom]
  | cons c t ih =>
      cases skip with
      | succ skip =>
          rw [cutFrom, ih]
          rfl
      | zero =>
          obtain ⟨w, ⟨rest, rfl⟩, hw⟩ := (isCutOff_next p before c t).front
          rw [cutFrom]
          dsimp only
          rw [ih, hw, List.length_cons, Nat.add_sub_cancel, List.drop_left, List.reverse_cons,
            List.flatMap_append, List.flatMap_singleton, hw]
          simp

theorem flatMap_text_cut (body : Text) : (cut body).flatMap text = body :=
  flatMap_text_cutFrom .top 0 [] [] body

theorem isWord_of_mem_cutFrom {p : CodePlace} {skip : Nat} {before : Text}
    {tokens : List CodeToken} {t name : Text}
    (htokens : ∀ name, .reference name ∈ tokens → IsWord name)
    (h : .reference name ∈ cutFrom p skip before tokens t) : IsWord name := by
  induction t generalizing p skip before tokens with
  | nil => exact htokens name (by simpa [cutFrom] using h)
  | cons c t ih =>
      cases skip with
      | succ skip => exact ih htokens h
      | zero =>
          -- The token that is cut off here joins those which are words already.
          refine ih ?_ h
          intro name' hname'
          rcases List.mem_cons.mp hname' with heq | hmem
          · exact (isCutOff_next p before c t).word name' heq.symm
          · exact htokens name' hmem

/-- The references in a body are words. -/
theorem isWord_of_mem_cut {body name : Text} (h : .reference name ∈ cut body) : IsWord name := by
  refine isWord_of_mem_cutFrom ?_ h
  intro name hname
  cases hname

end CodeToken

/-! ### Replacing words by words -/

/-- A name that is replaced by words is a word. -/
theorem CodeToken.isWord_substitute {renames : List (Text × Text)} {name : Text}
    (hrenames : ∀ pair ∈ renames, IsWord pair.2) (hname : IsWord name) :
    IsWord (substitute renames name) := by
  unfold substitute
  cases hlookup : renames.lookup name with
  | none => exact hname
  | some new =>
      obtain ⟨before, after, rfl, -⟩ := List.lookup_eq_some_iff.mp hlookup
      exact hrenames (name, new) List.mem_append_cons_self

/-- Words scan alike. -/
theorem CodeToken.IsWord.scansLike {name new : Text} (h : IsWord name) (h' : IsWord new) :
    name.ScansLike new :=
  Text.scansLike_of_isPlain (fun c hc => isPlain_of_isWordPart (h.2 c hc)) h.1
    (fun c hc => isPlain_of_isWordPart (h'.2 c hc)) h'.1

/-- The flat scanner makes the same of a body and of what replacing references by words makes of
it. -/
theorem scansLike_renameReferences {renames : List (Text × Text)}
    (hrenames : ∀ pair ∈ renames, CodeToken.IsWord pair.2) (body : Text) :
    body.ScansLike (renameReferences renames body) := by
  have htokens : Text.ScansLike ((CodeToken.cut body).flatMap CodeToken.text)
      (renameReferences renames body) := by
    apply Text.scansLike_flatMap
    intro token htoken
    -- Only words are replaced, and words scan alike.
    cases token with
    | fixed text => exact .refl text
    | reference name =>
        have hname := CodeToken.isWord_of_mem_cut htoken
        exact hname.scansLike (CodeToken.isWord_substitute hrenames hname)
  rwa [CodeToken.flatMap_text_cut] at htokens

end ElementScript
