import ElementScript.Listener
import ElementScript.Proofs.Listener.Rename
import ElementScript.Proofs.PassEdits
import ElementScript.Proofs.Scan.Block

/-!
# Bodies stay inside the dispatcher

The body of a handler is balanced where it stands in the script. It is trimmed before it is put into
the dispatcher, which may cut off a blank that a backslash escapes; but the line feed that the
dispatcher puts behind a body takes up the escape (`Text.IsBalanced.trim_newline`). Replacing
references changes nothing for the scanner either, so every listener that is lifted out of a script
is contained in its case (`Listener.isContained_of_mem`), the method is balanced, and its first
block ends where the method does (`dispatcher_closes_method`).
-/

namespace ElementScript

/-! ### Trimmed bodies -/

namespace Text

open BraceState

variable {t : Text} {c : Char}

theorem isPlain_of_isBlank (h : isBlank c) : isPlain c := isPlain_of_class (by decide) h

/-- Only blanks are trimmed off the end of a text. -/
theorem exists_trimEnd_append (t : Text) :
    ∃ gap, t = trimEnd t ++ gap ∧ ∀ c ∈ gap, isBlank c := by
  refine ⟨(blanks t.reverse).reverse, ?_, fun c hc => ?_⟩
  · have hsplit := blanks_append_trimStart t.reverse
    rw [trimEnd, ← List.reverse_append]
    exact List.reverse_eq_iff.mp hsplit.symm
  · exact isBlank_of_mem_blanks (List.mem_reverse.mp hc)

/-- A balanced text may be trimmed if a line feed is put behind it. -/
theorem IsBalanced.trim_newline (h : t.IsBalanced) : IsBalanced (trim t ++ ['\n']) := by
  have hnewline : IsBalanced ['\n'] := isBalanced_of_all (by decide)
  have hblanks : IsBalanced (blanks t) :=
    isBalanced_of_isPlain fun c hc => isPlain_of_isBlank (isBlank_of_mem_blanks hc)
  have hrest : IsBalanced (trimStart t) := by
    rw [← blanks_append_trimStart t] at h
    exact hblanks.of_append h
  obtain ⟨gap, hgap, hblank⟩ := exists_trimEnd_append (trimStart t)
  by_cases hnil : gap = []
  · have htrim : trim t = trimStart t := by rw [trim, ← List.append_nil (trimEnd _), ← hnil, ← hgap]
    rw [htrim]
    exact hrest.append hnewline
  · -- The scanner cannot tell the blanks from the line feed: either takes up an escape.
    have hlike : ScansLike gap ['\n'] := scansLike_of_isPlain
      (fun c hc => isPlain_of_isBlank (hblank c hc)) hnil (List.all_eq_true.mp (by decide))
      (List.cons_ne_nil _ _)
    rw [hgap] at hrest
    exact ((ScansLike.refl (trim t)).append hlike).isBalanced hrest

end Text

/-! ### Listeners of a script -/

namespace Listener

/-- The texts of a listener do not reach out of the case that is made of it. -/
structure IsContained (l : Listener) : Prop where
  observed : ∀ c ∈ l.observed, isAttributePart c
  body : Text.IsBalanced (l.body ++ ['\n'])

end Listener

namespace CodeToken

/-- Identifiers are words. -/
theorem isWord_of_isIdentifier {t : Text} (h : Text.isIdentifier t) : IsWord t := by
  refine ⟨Text.ne_nil_of_isIdentifier h, fun c hc => ?_⟩
  exact isWordPart_of_isIdentifierPart (Text.isIdentifierPart_of_mem h c hc)

end CodeToken

namespace Vocabulary

variable {v : Vocabulary}

theorem nameFlaw?_eq_none_iff {name : Text} : nameFlaw? name = none ↔ Text.isIdentifier name := by
  unfold nameFlaw?
  split
  · rename_i hname
    exact iff_of_true rfl hname
  · rename_i hname
    exact iff_of_false nofun hname

/-- All that is checked of a vocabulary. -/
theorem flaw?_eq_none_iff :
    v.flaw? = none ↔ Text.trim v.listenerToken ≠ [] ∧ Text.trim v.loadHandlerMarker ≠ [] ∧
      (∀ entry ∈ v.lifecycle, entryFlaw? entry = none) ∧ Text.isIdentifier v.oldValueName ∧
      Text.isIdentifier v.newValueName ∧ v.oldValueName ≠ v.newValueName := by
  unfold flaw?
  split
  · rename_i htoken
    exact iff_of_false nofun fun h => h.1 (List.isEmpty_iff.mp htoken)
  · rename_i htoken
    rw [and_iff_right (mt List.isEmpty_iff.mpr htoken)]
    split
    · rename_i hmarker
      exact iff_of_false nofun fun h => h.1 (List.isEmpty_iff.mp hmarker)
    · rename_i hmarker
      rw [and_iff_right (mt List.isEmpty_iff.mpr hmarker), Option.or_eq_none_iff,
        Option.or_eq_none_iff, Option.or_eq_none_iff, List.findSome?_eq_none_iff,
        nameFlaw?_eq_none_iff, nameFlaw?_eq_none_iff, ite_eq_right_iff]
      simp

/-- The values have names in a vocabulary without flaws. -/
theorem isIdentifier_of_flaw?_eq_none (hv : v.flaw? = none) :
    Text.isIdentifier v.oldValueName ∧ Text.isIdentifier v.newValueName := by
  obtain ⟨-, -, -, hold, hnew, -⟩ := flaw?_eq_none_iff.mp hv
  exact ⟨hold, hnew⟩

end Vocabulary

namespace Listener

variable {v : Vocabulary}

/-- Parameters become names of the vocabulary, which are words. -/
theorem isWord_of_mem_renames (hv : v.flaw? = none) {params : Option Text × Option Text}
    {pair : Text × Text} (hpair : pair ∈ renames v params) : CodeToken.IsWord pair.2 := by
  obtain ⟨hold, hnew⟩ := v.isIdentifier_of_flaw?_eq_none hv
  obtain ⟨hmem, -⟩ := List.mem_filter.mp hpair
  rcases List.mem_append.mp hmem with hmem | hmem
  · obtain ⟨name, -, rfl⟩ := List.mem_map.mp hmem
    exact CodeToken.isWord_of_isIdentifier hold
  · obtain ⟨name, -, rfl⟩ := List.mem_map.mp hmem
    exact CodeToken.isWord_of_isIdentifier hnew

/-- A listener that is read from a call is contained. -/
theorem isContained_of_at? (hv : v.flaw? = none) {text : Text} {x : Found Listener}
    (hx : at? v text = .ok (some x)) : x.value.IsContained := by
  obtain ⟨call, h, -, hh, hof⟩ := at?_eq_some hx
  obtain ⟨observed, rest, names, hattribute, -, rfl⟩ := ofHandler_eq_ok hof
  obtain ⟨-, -, hbody⟩ := handler?_eq_some_iff.mp hh
  refine ⟨?_, ?_⟩
  · obtain ⟨before, after, -, hafter⟩ := attribute?_eq_some hattribute
    obtain ⟨q, gap, gap', -, -, -, -, -, hpart⟩ := attributeAt?_eq_some hafter
    exact hpart
  · have hwords : ∀ pair ∈ renames v (valueParams names), CodeToken.IsWord pair.2 :=
      fun pair hpair => isWord_of_mem_renames hv hpair
    have hlike := scansLike_renameReferences hwords (Text.trim h.body)
    exact (hlike.append (.refl ['\n'])).isBalanced hbody.trim_newline

/-- Every listener that is lifted out of a script is contained. -/
theorem isContained_of_mem (hv : v.flaw? = none) {script : Text} {x : LiftedListeners}
    (hx : liftListeners v script = .ok x) {l : Listener} (hl : l ∈ x.listeners) :
    l.IsContained := by
  obtain ⟨steps, hsteps, rfl⟩ := liftListeners_eq_ok hx
  obtain ⟨step, hstep, hvalue⟩ := List.mem_filterMap.mp hl
  cases step with
  | keep c => cases hvalue
  | found y =>
      cases hvalue
      obtain ⟨before, rest, -, hfound⟩ :=
        (swept_listenerSteps v script).exists_find_of_mem hsteps hstep
      exact isContained_of_at? hv hfound

end Listener

/-! ### The dispatcher -/

namespace Dispatcher

open BraceState Text

/-- The first line of the method, up to its brace. -/
def opening (v : Vocabulary) : Text :=
  "attributeChangedCallback(attr, ".toList ++ v.oldValueName ++ ", ".toList ++ v.newValueName ++
    ") ".toList

/-- The block of the switch. -/
def switchBlock (listeners : List Listener) : Text :=
  '\x7b' :: (('\n' :: (listeners.flatMap caseLines ++ indent)) ++ ['\x7d'])

/-- The text inside the braces of the method. -/
def inside (listeners : List Listener) : Text :=
  '\n' :: (indent ++ "switch(attr) ".toList) ++ (switchBlock listeners ++ ['\n'])

theorem method_eq (v : Vocabulary) (listeners : List Listener) :
    method v listeners = opening v ++ '\x7b' :: (inside listeners ++ ['\x7d']) := by
  have hsignature : ") \x7b\n".toList = ") ".toList ++ ['\x7b', '\n'] := by rfl
  have hswitch : "switch(attr) \x7b\n".toList = "switch(attr) ".toList ++ ['\x7b', '\n'] := by rfl
  have hend : "\x7d\n\x7d".toList = ['\x7d', '\n', '\x7d'] := by rfl
  unfold method signature opening inside switchBlock
  rw [hsignature, hswitch, hend]
  generalize "attributeChangedCallback(attr, ".toList = lead
  generalize ", ".toList = comma
  generalize ") ".toList = close
  generalize "switch(attr) ".toList = switch
  simp

/-- A plain text in quotes is balanced. -/
theorem isBalanced_quoted {t : Text} (h : ∀ c ∈ t, isPlain c) : IsBalanced (quoted t) := by
  have hopen : (atDepth 0).step '\"' = ⟨⟨some '\"', false⟩, 0⟩ := rfl
  have hclose : (⟨⟨some '\"', false⟩, 0⟩ : BraceState).step '\"' = atDepth 0 := rfl
  have hproper : (⟨some '\"', false⟩ : QuoteState).IsProper := by
    intro q hq
    cases hq
    rfl
  have hrun : (⟨⟨some '\"', false⟩, 0⟩ : BraceState).run t = ⟨⟨some '\"', false⟩, 0⟩ := by
    by_cases hne : t = []
    · rw [hne, run_nil]
    · exact run_of_isPlain h hne hproper
  refine ⟨?_, ?_⟩
  · rw [quoted, staysAbove_cons, hopen, staysAbove_append, hrun, staysAbove_cons, hclose,
      staysAbove_nil]
    exact ⟨Int.le_refl 0, staysAbove_of_isPlain h hproper (Int.le_refl 0), Int.le_refl 0,
      Int.le_refl 0⟩
  · rw [quoted, run_cons, hopen, run_append, hrun, run_cons, hclose, run_nil]

theorem isBalanced_indent : IsBalanced indent := isBalanced_of_all (by decide)

/-- The case of a contained listener is balanced. -/
theorem isBalanced_caseLines {l : Listener} (h : l.IsContained) : IsBalanced (caseLines l) := by
  have hcase : IsBalanced "case ".toList := isBalanced_of_all (by decide)
  have hcolon : IsBalanced ":\n".toList := isBalanced_of_all (by decide)
  have hbreak : IsBalanced "break;\n".toList := isBalanced_of_all (by decide)
  have hindent := isBalanced_indent
  have hobserved : IsBalanced (quoted l.observed) :=
    isBalanced_quoted fun c hc => isPlain_of_class (by decide) (h.observed c hc)
  -- The line feed belongs to the body, which may need it to end an escape.
  have hbody : IsBalanced
      (if l.body.isEmpty then [] else indent ++ indent ++ indent ++ l.body ++ ['\n']) := by
    split
    · exact isBalanced_nil
    · rw [List.append_assoc _ l.body]
      exact ((hindent.append hindent).append hindent).append h.body
  have hhead := (((hindent.append hindent).append hcase).append hobserved).append hcolon
  exact ((((hhead.append hbody).append hindent).append hindent).append hindent).append hbreak

/-- The method of contained listeners is balanced inside its braces. -/
theorem isBalanced_inside {listeners : List Listener} (h : ∀ l ∈ listeners, l.IsContained) :
    IsBalanced (inside listeners) := by
  have hnewline : IsBalanced ['\n'] := isBalanced_of_all (by decide)
  have hswitch : IsBalanced "switch(attr) ".toList := isBalanced_of_all (by decide)
  have hcases : IsBalanced (listeners.flatMap caseLines) := by
    induction listeners with
    | nil => exact isBalanced_nil
    | cons l listeners ih =>
        have hl := isBalanced_caseLines (h l List.mem_cons_self)
        exact hl.append (ih fun m hm => h m (List.mem_cons_of_mem l hm))
  have hblock : IsBalanced (switchBlock listeners) :=
    (hnewline.append (hcases.append isBalanced_indent)).braces
  exact (hnewline.append (isBalanced_indent.append hswitch)).append (hblock.append hnewline)

/-- No brace stands before that of the method. -/
theorem notMem_opening {v : Vocabulary} (hv : v.flaw? = none) : '\x7b' ∉ opening v := by
  obtain ⟨hold, hnew⟩ := v.isIdentifier_of_flaw?_eq_none hv
  have hword {name : Text} (h : isIdentifier name) : '\x7b' ∉ name := by
    intro hmem
    have := (CodeToken.isWord_of_isIdentifier h).2 _ hmem
    revert this
    decide
  have hsignature : '\x7b' ∉ "attributeChangedCallback(attr, ".toList := by simp
  have hcomma : '\x7b' ∉ ", ".toList := by decide
  have hend : '\x7b' ∉ ") ".toList := by decide
  unfold opening
  rw [List.mem_append, List.mem_append, List.mem_append, List.mem_append, not_or, not_or, not_or,
    not_or]
  exact ⟨⟨⟨⟨hsignature, hword hold⟩, hcomma⟩, hword hnew⟩, hend⟩

end Dispatcher

/-- Whatever listeners a script has, the first block of the dispatcher made for them is that of its
method, and ends where the method does: behind it stands the accessor and nothing else. -/
theorem dispatcher_closes_method {v : Vocabulary} (hv : v.flaw? = none) {script : Text}
    {x : LiftedListeners} (hx : liftListeners v script = .ok x) :
    ∃ b, Block.firstFrom (dispatcherMembers v x.listeners) 0 = .ok b ∧
      b.head? (dispatcherMembers v x.listeners) =
        some ('\n' :: ("attributeChangedCallback(attr, ".toList ++ v.oldValueName ++ ", ".toList ++
          v.newValueName ++ ") ".toList)) ∧
      Text.splitAt? b.stop (dispatcherMembers v x.listeners) =
        some ('\n' :: Dispatcher.method v x.listeners,
          '\n' :: ("static get observedAttributes() \x7b return [".toList ++
            ", ".toList.intercalate
              ((Listener.observedAttributes x.listeners).map Dispatcher.quoted) ++
            "]; \x7d\n".toList)) := by
  have hinside : Text.IsBalanced (Dispatcher.inside x.listeners) :=
    Dispatcher.isBalanced_inside fun l hl => Listener.isContained_of_mem hv hx hl
  have hopening : '\x7b' ∉ '\n' :: Dispatcher.opening v := by
    rw [List.mem_cons, not_or]
    exact ⟨by decide, Dispatcher.notMem_opening hv⟩
  have hmembers : dispatcherMembers v x.listeners =
      [] ++ (('\n' :: Dispatcher.opening v) ++ '\x7b' :: (Dispatcher.inside x.listeners ++
        '\x7d' :: ('\n' :: Dispatcher.accessor x.listeners))) := by
    rw [dispatcherMembers, Dispatcher.method_eq]
    simp
  have hmethod : '\n' :: Dispatcher.method v x.listeners =
      [] ++ (('\n' :: Dispatcher.opening v) ++ '\x7b' :: (Dispatcher.inside x.listeners ++
        ['\x7d'])) := by
    rw [Dispatcher.method_eq]
    rfl
  -- Nothing stands before the line feed, from which the search for the block starts.
  refine ⟨_, hmembers ▸ Block.firstFrom_append hopening hinside, ?_, ?_⟩
  · rw [hmembers, Block.head?_ofBody]
    rfl
  · rw [Block.stop_ofBody, ← hmethod]
    exact Text.splitAt?_byteSize_append ('\n' :: Dispatcher.method v x.listeners)
      ('\n' :: Dispatcher.accessor x.listeners)

/-- A body that ends in an escaped blank, which trimming cuts off. -/
theorem escapedBlank_closes_method :
    ∃ x b,
      liftListeners .standard "addChangeListener(\"a\", n => \x7b f(n) \\ \x7d)".toList = .ok x ∧
      x.listeners.map Listener.body = ["f(newValue) \\".toList] ∧
      Block.firstFrom (dispatcherMembers .standard x.listeners) 0 = .ok b ∧
      Text.splitAt? b.stop (dispatcherMembers .standard x.listeners) =
        some ('\n' :: Dispatcher.method .standard x.listeners,
          "\nstatic get observedAttributes() \x7b return [\"a\"]; \x7d\n".toList) := by
  have hv : Vocabulary.standard.flaw? = none := by decide
  have hx : liftListeners .standard "addChangeListener(\"a\", n => \x7b f(n) \\ \x7d)".toList =
      .ok ⟨[.replace "addChangeListener(\"a\", n => \x7b f(n) \\ \x7d)".toList []],
        [⟨"a".toList, "f(newValue) \\".toList, none, some "n".toList⟩]⟩ := by rfl
  obtain ⟨b, hb, -, hstop⟩ := dispatcher_closes_method hv hx
  exact ⟨_, b, hx, rfl, hb, hstop⟩

end ElementScript
