import ElementScript.Files.Tree
import ElementScript.Proofs.Component.Request

/-!
# Where a request leads

The length of a name is limited as it is written, and its characters once it is in lower case. Only
`İ` grows in lower case, into something that is no part of a name (`length_lowercase`), so every
name that is looked up keeps to both limits (`isDirectoryName_of_accepts`). The paths of such a name
lead straight down from the directory of all components (`pathOf_eq`), and what a request is
answered depends on no other files (`answer_confined`).
-/

namespace ElementScript

/-! ### Lower case -/

namespace Text

/-- A character is one in lower case too, or it gets a combining dot. -/
theorem length_lowerAt {before after : Text} {c : Char} (h : '\u0307' ∉ lowerAt before c after) :
    (lowerAt before c after).length = 1 := by
  by_cases hsigma : c = '\u03a3'
  · unfold lowerAt
    rw [if_pos hsigma]
    split <;> rfl
  · rw [lowerAt, if_neg hsigma] at h ⊢
    by_cases hdotted : c = '\u0130'
    · rw [lowerChar, if_pos hdotted] at h
      exact absurd (by simp) h
    · rw [lowerChar, if_neg hdotted]
      split <;> rfl

theorem mem_lowercaseFrom {before lower t : Text} {c : Char} (h : c ∈ lower) :
    c ∈ lowercaseFrom before lower t := by
  induction t generalizing before lower with
  | nil => exact List.mem_reverse.mpr h
  | cons d t ih => exact ih (List.mem_append_right _ h)

theorem length_lowercaseFrom {before lower t : Text} (h : '\u0307' ∉ lowercaseFrom before lower t) :
    (lowercaseFrom before lower t).length = lower.length + t.length := by
  induction t generalizing before lower with
  | nil => simp [lowercaseFrom]
  | cons c t ih =>
      rw [lowercaseFrom] at h ⊢
      have hchar : (lowerAt before c t).length = 1 := by
        refine length_lowerAt fun hdot => h (mem_lowercaseFrom ?_)
        exact List.mem_append_left _ (List.mem_reverse.mpr hdot)
      rw [ih h, List.length_append, List.length_reverse, hchar, List.length_cons]
      omega

/-- A text is as long in lower case as it was, unless it gets a combining dot. -/
theorem length_lowercase {t : Text} (h : '\u0307' ∉ lowercase t) :
    (lowercase t).length = t.length := by
  rw [lowercase, length_lowercaseFrom h]
  simp

theorem length_trim_le (t : Text) : (trim t).length ≤ t.length := by
  rw [trim, trimEnd, List.length_reverse]
  refine (List.dropWhile_sublist isBlank).length_le.trans ?_
  rw [List.length_reverse]
  exact (List.dropWhile_sublist isBlank).length_le

end Text

/-! ### Names of directories -/

namespace Component

/-- The letters of a component's name. -/
def nameLetters : Text := "abcdefghijklmnopqrstuvwxyz0123456789_-".toList

/-- A name by which a request may go down from the directory of all components. -/
structure IsDirectoryName (limit : Nat) (k : Text) : Prop where
  ne_nil : k ≠ []
  letters : ∀ c ∈ k, c ∈ nameLetters
  length_le : k.length ≤ limit

theorem mem_nameLetters {c : Char} (h : isNamePart c) : c ∈ nameLetters := by
  have hascii : ∀ n < 128, isNamePart (Char.ofNat n) → Char.ofNat n ∈ nameLetters := by decide
  have hlt : c.toNat < 128 := by
    simp only [isNamePart, Bool.or_eq_true, beq_iff_eq] at h
    rcases h with ((hlower | hdigit) | rfl) | rfl
    · have hle : c.toNat ≤ 122 := of_decide_eq_true (Bool.and_eq_true_iff.mp hlower).2
      omega
    · have hle : c.toNat ≤ 57 := of_decide_eq_true (Bool.and_eq_true_iff.mp hdigit).2
      omega
    · decide
    · decide
  have hc := hascii c.toNat hlt
  rw [Char.ofNat_toNat] at hc
  exact hc h

theorem isDirectoryName_of_accepts {store : Store} {raw : Text} (h : store.accepts raw) :
    IsDirectoryName store.config.maxTagNameLength (canonicalName raw) := by
  rw [Store.accepts, Bool.and_eq_true, decide_eq_true_eq, isName, Bool.and_eq_true] at h
  obtain ⟨hlimit, hne, hall⟩ := h
  have hletters : ∀ c ∈ canonicalName raw, c ∈ nameLetters :=
    fun c hc => mem_nameLetters (List.all_eq_true.mp hall c hc)
  have hdot : '\u0307' ∉ Text.lowercase (Text.trim raw) := by
    intro hmem
    have hnot : '\u0307' ∉ nameLetters := by decide
    exact hnot (hletters _ hmem)
  refine ⟨by simpa using hne, hletters, ?_⟩
  calc (canonicalName raw).length = (Text.trim raw).length := Text.length_lowercase hdot
    _ ≤ raw.length := Text.length_trim_le raw
    _ ≤ store.config.maxTagNameLength := hlimit

end Component

/-! ### Paths -/

namespace Path

theorem join_of_relative (p : Path) {q : Path} (hq : isAbsolute q = false) :
    join p q = if p.isEmpty || p.getLast? == some '/' then p ++ q else p ++ '/' :: q := by
  rw [join, hq, if_neg Bool.false_ne_true]

/-- Going down twice is going down once. -/
theorem join_join {p q : Path} (dir : Path) (hp : isAbsolute p = false) (hq : isAbsolute q = false)
    (hne : p ≠ []) (hlast : p.getLast? ≠ some '/') :
    join (join dir p) q = join dir (p ++ '/' :: q) := by
  obtain ⟨c, u, rfl⟩ := List.exists_cons_of_ne_nil hne
  have hpq : isAbsolute (c :: u ++ '/' :: q) = false := hp
  have hdown (t : Path) : join (t ++ c :: u) q = t ++ (c :: u ++ '/' :: q) := by
    have hopen : ((t ++ c :: u).isEmpty || (t ++ c :: u).getLast? == some '/') = false := by
      rw [List.getLast?_append_of_ne_nil t hne]
      simp [hlast]
    rw [join_of_relative _ hq, hopen, if_neg Bool.false_ne_true, List.append_assoc]
  rw [join_of_relative dir hp, join_of_relative dir hpq]
  by_cases hdir : dir.isEmpty || dir.getLast? == some '/'
  · rw [if_pos hdir, if_pos hdir, hdown]
  · rw [if_neg hdir, if_neg hdir, List.append_cons, hdown]
    simp

end Path

/-- The path of a part of a component, seen from the directory of all components. -/
def partPath (k extension : Text) : Path := k ++ '/' :: '_' :: (k ++ '.' :: extension)

namespace Component

theorem IsDirectoryName.slash_notMem {limit : Nat} {k : Text} (h : IsDirectoryName limit k) :
    '/' ∉ k := by
  intro hmem
  have hnot : '/' ∉ nameLetters := by decide
  exact hnot (h.letters _ hmem)

theorem IsDirectoryName.isAbsolute_append {limit : Nat} {k : Text} (h : IsDirectoryName limit k)
    (t : Text) : Path.isAbsolute (k ++ t) = false := by
  rw [Path.isAbsolute, beq_eq_false_iff_ne, List.head?_append_of_ne_nil k h.ne_nil]
  intro hhead
  exact h.slash_notMem (List.mem_of_head? hhead)

/-- The parts of a component lie straight below the directory of all components. -/
theorem Store.pathOf_eq {limit : Nat} {k : Text} (store : Store) (h : IsDirectoryName limit k)
    (extension : Text) :
    store.pathOf k extension = Path.join store.config.componentsDir (partPath k extension) := by
  have habsolute : Path.isAbsolute k = false := List.append_nil k ▸ h.isAbsolute_append []
  have hlast : k.getLast? ≠ some '/' := fun hlast => h.slash_notMem (List.mem_of_getLast? hlast)
  exact Path.join_join _ habsolute rfl h.ne_nil hlast

end Component

/-! ### What is read -/

/-- What comes of reading a file as text. -/
inductive Reading where
  | content (t : Text)
  | missing
  | failed

/-- What comes of reading the file at a path. -/
def FileAccess.reading (files : FileAccess Id) (path : Path) : Reading :=
  match (show Except FileProblem Text from files.readText path) with
  | .ok t => .content t
  | .error .notFound => .missing
  | .error _ => .failed

/-- What is read of an optional part, unless its file cannot be read. -/
def Reading.part? : Reading → Option (Option Text)
  | content t => some (if t.isEmpty then none else some t)
  | missing => some none
  | failed => none

namespace Component.Store

variable {files files' : FileAccess Id} {store : Component.Store} {name : Text}

theorem readOptional_eq_ok_iff {path : Path} {part? : Option Text} :
    readOptional files path = .ok part? ↔ (files.reading path).part? = some part? := by
  have hok {a b : Option Text} :
      (show Id (Except LoadProblem (Option Text)) from .ok a) = .ok b ↔ a = b :=
    ⟨Except.ok.inj, congrArg Except.ok⟩
  unfold readOptional FileAccess.reading
  simp only [bind, pure]
  cases files.readText path with
  | ok t => cases t <;> simp [Reading.part?, hok]
  | error problem => cases problem <;> simp [Reading.part?, hok]

/-- The parts of a component, by the endings of their files. -/
def extensions : List Text := ["html".toList, "css".toList, "js".toList]

/-- Files that read alike at the parts of a component give the same component. -/
theorem assemble_of_reading (h : ∀ extension ∈ extensions,
      files.reading (store.pathOf name extension) = files'.reading (store.pathOf name extension))
    {component : Component} (hsome : store.assemble files name = .ok (some component)) :
    store.assemble files' name = .ok (some component) := by
  have hpart {extension : Text} (hmem : extension ∈ extensions) {part? : Option Text}
      (hread : readOptional files (store.pathOf name extension) = .ok part?) :
      readOptional files' (store.pathOf name extension) = .ok part? := by
    rw [readOptional_eq_ok_iff, ← h extension hmem]
    exact readOptional_eq_ok_iff.mp hread
  unfold assemble at hsome ⊢
  simp only [bind, pure] at hsome ⊢
  cases hmarkup : readOptional files (store.pathOf name "html".toList) with
  | error problem =>
      rw [hmarkup] at hsome
      cases hsome
  | ok markup? =>
      rw [hmarkup] at hsome
      rw [hpart (by decide) hmarkup]
      cases markup? with
      | none => cases hsome
      | some markup =>
          cases hstyle : readOptional files (store.pathOf name "css".toList) with
          | error problem =>
              simp only [hstyle] at hsome
              cases hsome
          | ok style? =>
              cases hscript : readOptional files (store.pathOf name "js".toList) with
              | error problem =>
                  simp only [hstyle, hscript] at hsome
                  cases hsome
              | ok script? =>
                  simp only [hstyle, hscript] at hsome
                  simpa only [hpart (by decide) hstyle, hpart (by decide) hscript] using hsome

/-- A load depends on the files of the parts of its component only. -/
theorem load?_eq_of_reading (h : ∀ extension ∈ extensions,
      files.reading (store.pathOf name extension) = files'.reading (store.pathOf name extension)) :
    store.load? files name = store.load? files' name := by
  refine Option.ext fun component => ?_
  rw [load?_eq_some_iff, load?_eq_some_iff, fetch_fst, fetch_fst]
  cases store.find? name with
  | some found => exact Iff.rfl
  | none =>
      have hback := fun extension hmem => (h extension hmem).symm
      exact ⟨assemble_of_reading h, assemble_of_reading hback⟩

/-- A request leads nowhere but to the parts of components, in the directories of their names below
that of all components. What is found elsewhere makes no difference to its answer, and neither does
why a part cannot be read. -/
theorem answer_confined (store : Component.Store) (names : List Text) (files files' : FileAccess Id)
    (h : ∀ k, IsDirectoryName store.config.maxTagNameLength k → ∀ extension ∈ extensions,
      files.reading (Path.join store.config.componentsDir (partPath k extension)) =
        files'.reading (Path.join store.config.componentsDir (partPath k extension))) :
    (store.answer files names).1 = (store.answer files' names).1 ∧
      ∀ components, (store.answer files names).1 = some components →
        ∀ p ∈ components, IsDirectoryName store.config.maxTagNameLength p.1 := by
  by_cases hne : names = []
  · subst hne
    exact ⟨rfl, nofun⟩
  obtain ⟨components, hanswer, horder, hanswered⟩ := answer_answered store files hne
  obtain ⟨components', hanswer', horder', hanswered'⟩ := answer_answered store files' hne
  have hname {k : Text} (hasked : store.asksFor names k) :
      IsDirectoryName store.config.maxTagNameLength k := by
    obtain ⟨raw, -, haccepts, rfl⟩ := asksFor_iff.mp hasked
    exact isDirectoryName_of_accepts haccepts
  refine ⟨?_, ?_⟩
  · rw [hanswer, hanswer']
    refine congrArg some (horder.ext horder' fun k => ?_)
    rw [hanswered.lookup, hanswered'.lookup]
    by_cases hasked : store.asksFor names k
    · rw [if_pos hasked, if_pos hasked]
      refine load?_eq_of_reading fun extension hmem => ?_
      rw [store.pathOf_eq (hname hasked)]
      exact h k (hname hasked) extension hmem
    · rw [if_neg hasked, if_neg hasked]
  · intro answered hsome p hp
    obtain rfl := Option.some.inj (hanswer.symm.trans hsome)
    have hlookup := (lookup_eq_some_iff_mem hanswered.nodup).mpr hp
    rw [hanswered.lookup] at hlookup
    by_cases hasked : store.asksFor names p.1
    · exact hname hasked
    · rw [if_neg hasked] at hlookup
      cases hlookup

end Component.Store

/-! ### Trees around the directory of all components -/

/-- On the way down, what is around a tree is not looked at. -/
theorem Tree.follow_down {parts : List Text} (h : ['.', '.'] ∉ parts) (above above' : List Tree)
    (here : Tree) : follow above here parts = follow above' here parts := by
  induction parts generalizing above above' here with
  | nil => rfl
  | cons part parts ih =>
      obtain ⟨hpart, hparts⟩ := List.ne_and_not_mem_of_not_mem_cons h
      have hup : (part == ['.', '.']) = false := beq_eq_false_iff_ne.mpr (Ne.symm hpart)
      simp only [follow, hup, Bool.false_eq_true, if_false, ih hparts above above']
      cases here.entries.lookup part with
      | none => rfl
      | some inner => simp only [ih hparts (here :: above) (here :: above')]

namespace Component

theorem IsDirectoryName.parts_partPath {limit : Nat} {k extension : Text}
    (h : IsDirectoryName limit k) (hextension : '/' ∉ extension) :
    Path.parts (partPath k extension) = [k, '_' :: (k ++ '.' :: extension)] := by
  have hne {t : Text} (ht : '/' ∉ t) : ∀ c ∈ t, (c == '/') = false := by
    intro c hc
    rw [beq_eq_false_iff_ne]
    rintro rfl
    exact ht hc
  have hfile : '/' ∉ '_' :: (k ++ '.' :: extension) := by simp [h.slash_notMem, hextension]
  rw [Path.parts, partPath, List.splitOnP_append_cons_of_forall_mem (hne h.slash_notMem) '/' rfl,
    List.splitOnP_eq_singleton (hne hfile)]

/-- A file beside the directory of all components does not show, whatever is asked for. -/
theorem answer_confined_secret :
    let store : Store := ⟨.ofDirectory "c".toList, .standard, []⟩
    let cards := Tree.directory
      [("card".toList, .directory [("_card.html".toList, .file "<b>".toUTF8)])]
    let names := ["card".toList, "../secret".toList, "/secret".toList]
    (store.answer (Tree.directory [("c".toList, cards)]).access names).1 =
        some [("card".toList, ⟨"<b>".toList, none, none⟩)] ∧
      (store.answer (Tree.directory
          [("secret".toList, .file "<i>".toUTF8), ("c".toList, cards)]).access names).1 =
        some [("card".toList, ⟨"<b>".toList, none, none⟩)] := by
  intro store cards names
  have hanswer : (store.answer (Tree.directory [("c".toList, cards)]).access names).1 =
      some [("card".toList, ⟨"<b>".toList, none, none⟩)] := by decide +kernel
  refine ⟨hanswer, ?_⟩
  rw [← hanswer]
  refine (store.answer_confined names _ _ ?_).1
  intro k hk extension hextension
  have hslash : '/' ∉ extension := by
    revert extension
    decide
  have hrelative : Path.isAbsolute (partPath k extension) = false := hk.isAbsolute_append _
  have hjoin : Path.join store.config.componentsDir (partPath k extension) =
      "c".toList ++ '/' :: partPath k extension := by
    rw [Path.join_of_relative _ hrelative]
    rfl
  have hparts : Path.parts ("c".toList ++ '/' :: partPath k extension) =
      ["c".toList, k, '_' :: (k ++ '.' :: extension)] := by
    have hfirst : ∀ c ∈ "c".toList, (c == '/') = false := by
      intro c hc
      obtain rfl := List.mem_singleton.mp hc
      rfl
    rw [Path.parts, List.splitOnP_append_cons_of_forall_mem hfirst '/' rfl]
    exact congrArg ("c".toList :: ·) (hk.parts_partPath hslash)
  have hstraight : ['.', '.'] ∉ [k, '_' :: (k ++ '.' :: extension)] := by
    have hdot : '.' ∉ nameLetters := by decide
    have hk' : ['.', '.'] ≠ k := fun heq => hdot (hk.letters '.' (by simp [← heq]))
    simp [hk']
  have hfind : (Tree.directory [("c".toList, cards)]).find
        ("c".toList ++ '/' :: partPath k extension) =
      (Tree.directory [("secret".toList, .file "<i>".toUTF8), ("c".toList, cards)]).find
        ("c".toList ++ '/' :: partPath k extension) := by
    have hrelative' : Path.isAbsolute ("c".toList ++ '/' :: partPath k extension) = false := rfl
    have hdown : Tree.follow [] (.directory [("c".toList, cards)])
          ["c".toList, k, '_' :: (k ++ '.' :: extension)] =
        Tree.follow [] (.directory [("secret".toList, .file "<i>".toUTF8), ("c".toList, cards)])
          ["c".toList, k, '_' :: (k ++ '.' :: extension)] :=
      Tree.follow_down hstraight _ _ cards
    simp only [Tree.find, hparts, hrelative', Bool.false_eq_true, if_false, hdown]
  rw [hjoin]
  simp only [FileAccess.reading, FileAccess.readText, Tree.access, Tree.read, hfind]

end Component

end ElementScript
