import Mathlib.Data.List.Infix
import Mathlib.Data.List.TakeWhile
import ElementScript.Proofs.Listener.ListenerCall

/-!
# The parameters of a listener

A handler names its parameters in a list in parentheses, or it has a lone one in front of its arrow.
What is read as the list is the text of the first pair of parentheses with none inside
(`Text.firstList`), which is not the handler's own list if that has parentheses inside
(`ListenerCall.liftListeners_parameterList`). What is read as a lone parameter is the longest
identifier in which the word in front of the arrow ends
(`ListenerCall.liftListeners_bareParameter`).
-/

namespace ElementScript

/-! ### Parentheses -/

namespace Text

/-- Each parenthesis of the text is closed that is opened in it or is one of the `opened` ones in
front of it, and no other. -/
def pairsParens (opened : Nat) : Text → Bool
  | [] => opened == 0
  | c :: t =>
    if c = '(' then pairsParens (opened + 1) t
    else if c = ')' then opened != 0 && pairsParens (opened - 1) t
    else pairsParens opened t

/-- The text up to the first closing parenthesis, from behind the last opening one in front of
that. -/
def firstList (t : Text) : Text :=
  let inner := t.takeWhile (· != ')')
  (behindLast? '(' inner).getD inner

variable {t u w : Text}

/-- Where no parenthesis is opened, none is closed. -/
theorem notMem_of_pairsParens (h : pairsParens 0 t) (hopen : '(' ∉ t) : ')' ∉ t := by
  induction t with
  | nil => exact List.not_mem_nil
  | cons c t ih =>
      rw [List.mem_cons, not_or] at hopen
      obtain ⟨hc, ht⟩ := hopen
      rw [pairsParens, if_neg (Ne.symm hc)] at h
      by_cases hclose : c = ')'
      · rw [if_pos hclose] at h
        cases h
      · rw [if_neg hclose] at h
        rw [List.mem_cons, not_or]
        exact ⟨Ne.symm hclose, ih h ht⟩

theorem takeWhile_ne_eq_self {c : Char} (h : c ∉ t) : t.takeWhile (· != c) = t :=
  List.takeWhile_eq_self_iff.mpr fun _ hd => bne_iff_ne.mpr (ne_of_mem_of_not_mem hd h)

/-- A text without parentheses is its own list. -/
theorem firstList_eq_self (hopen : '(' ∉ t) (hclose : ')' ∉ t) : firstList t = t := by
  rw [firstList, takeWhile_ne_eq_self hclose, behindLast?_eq_none hopen]
  rfl

theorem pairsParens_of_isInert (h : ∀ c ∈ t, isInert c) : pairsParens 0 t := by
  induction t with
  | nil => rfl
  | cons c t ih =>
      obtain ⟨hc, htail⟩ := List.forall_mem_cons.mp h
      obtain ⟨-, hopen, hclose⟩ := isInert_iff.mp hc
      rw [pairsParens, if_neg hopen, if_neg hclose]
      exact ih htail

/-- Only blanks are trimmed off. -/
theorem mem_trim {c : Char} (hc : c ∈ t) (hblank : ¬ isBlank c) : c ∈ trim t := by
  obtain ⟨gap, gap', ht, hgap, hgap'⟩ := exists_trim_append t
  rw [ht] at hc
  rcases List.mem_append.mp hc with hmem | hmem
  · exact absurd (hgap c hmem) hblank
  · rcases List.mem_append.mp hmem with hmem | hmem
    · exact hmem
    · exact absurd (hgap' c hmem) hblank

theorem behindLast?_append_cons (q : Char) (w u : Text) :
    behindLast? q (w ++ q :: u) = some ((behindLast? q u).getD u) := by
  induction w with
  | nil =>
      rw [List.nil_append, behindLast?, if_pos rfl]
      cases behindLast? q u <;> rfl
  | cons c w ih =>
      rw [List.cons_append, behindLast?, ih]
      rfl

end Text

/-- Where parentheses come in pairs, a walk comes out inside as many as before. -/
theorem ArgumentWalk.pairs_append {parens opened parens' : Nat} {quotes' : QuoteState} {t u : Text}
    (ht : ∀ c ∈ t, BraceState.isPlain c) (hpairs : t.pairsParens opened)
    (rest : ArgumentWalk (parens + 1) .code u parens' quotes') :
    ArgumentWalk (parens + opened + 1) .code (t ++ u) parens' quotes' := by
  induction t generalizing opened with
  | nil =>
      obtain rfl : opened = 0 := by simpa [Text.pairsParens] using hpairs
      exact rest
  | cons c t ih =>
      obtain ⟨hc, htail⟩ := List.forall_mem_cons.mp ht
      rw [Text.pairsParens] at hpairs
      by_cases hopen : c = '('
      · rw [if_pos hopen] at hpairs
        subst hopen
        exact .openParen (ih htail hpairs)
      · rw [if_neg hopen] at hpairs
        by_cases hclose : c = ')'
        · rw [if_pos hclose, Bool.and_eq_true, bne_iff_ne] at hpairs
          subst hclose
          obtain ⟨hopened, hpairs⟩ := hpairs
          obtain ⟨n, rfl⟩ := Nat.exists_eq_succ_of_ne_zero hopened
          exact .closeParen (ih htail hpairs)
        · rw [if_neg hclose] at hpairs
          have hinert : ∀ d ∈ [c], isInert d :=
            List.forall_mem_singleton.mpr (isInert_iff.mpr ⟨hc, hopen, hclose⟩)
          have hwalk := ih htail hpairs
          exact ArgumentWalk.inert_append (u := [c]) hinert QuoteState.isProper_code rfl hwalk

namespace Listener

/-- The names of a list in parentheses, if it holds nothing but identifiers. -/
def listNames? (t : Text) : Option (List Text) :=
  if (commaParts t).all Text.isIdentifier then some (commaParts t) else none

theorem parenthesizedFrom_append {w u : Text} (hw : ')' ∉ w) (inside : Option Text) :
    parenthesizedFrom inside (w ++ ')' :: u) =
      ((Text.behindLast? '(' w).or (inside.map (·.reverse ++ w))).or
        (parenthesizedFrom none u) := by
  induction w generalizing inside with
  | nil => cases inside <;> simp [parenthesizedFrom, Text.behindLast?]
  | cons c w ih =>
      rw [List.mem_cons, not_or] at hw
      obtain ⟨hc, htail⟩ := hw
      rw [List.cons_append, parenthesizedFrom.eq_def, Text.behindLast?]
      dsimp only
      by_cases hopen : c = '('
      · rw [if_pos hopen, if_pos hopen, ih htail]
        cases Text.behindLast? '(' w <;> rfl
      · rw [if_neg hopen, if_neg (Ne.symm hc), if_neg hopen, ih htail, Option.or_none,
          Option.map_map]
        simp [Function.comp_def]

theorem parenthesizedFrom_eq_none {t : Text} (ht : ')' ∉ t) (inside : Option Text) :
    parenthesizedFrom inside t = none := by
  induction t generalizing inside with
  | nil => rfl
  | cons c t ih =>
      rw [List.mem_cons, not_or] at ht
      obtain ⟨hc, htail⟩ := ht
      rw [parenthesizedFrom.eq_def]
      dsimp only
      rw [if_neg (Ne.symm hc)]
      split <;> exact ih htail _

/-- Behind text without parentheses, the list that is read is the first one in those that open
there. -/
theorem parameters?_list {w : Text} (hw : ')' ∉ w) (t u : Text) :
    parameters? (w ++ '(' :: (t ++ ')' :: u)) = listNames? (Text.firstList t) := by
  have hmem : ')' ∉ t.takeWhile (· != ')') := fun hmem => by
    simpa using List.mem_takeWhile_imp hmem
  -- The first closing parenthesis stands in the list or right behind it.
  obtain ⟨u', hsplit⟩ : ∃ u', t ++ ')' :: u = t.takeWhile (· != ')') ++ ')' :: u' := by
    have happend := List.takeWhile_append_dropWhile (p := (· != ')')) (l := t)
    cases hdrop : t.dropWhile (· != ')') with
    | nil =>
        rw [hdrop, List.append_nil] at happend
        exact ⟨u, by rw [happend]⟩
    | cons d behind =>
        obtain ⟨ht, -⟩ := eq_takeWhile_append_of_dropWhile hdrop
        refine ⟨behind ++ ')' :: u, ?_⟩
        conv_lhs => rw [ht]
        simp
  have hinner : ')' ∉ w ++ '(' :: t.takeWhile (· != ')') := by simp [hw, hmem]
  have hread : parenthesized? (w ++ '(' :: (t ++ ')' :: u)) = some (Text.firstList t) := by
    have htext : w ++ '(' :: (t ++ ')' :: u) =
        (w ++ '(' :: t.takeWhile (· != ')')) ++ ')' :: u' := by
      rw [hsplit]
      simp
    rw [parenthesized?, htext, parenthesizedFrom_append hinner, Text.behindLast?_append_cons]
    rfl
  rw [parameters?, hread]
  rfl

theorem exists_mem_splitOnP {p : Char → Bool} {t : Text} {c : Char} (hc : c ∈ t)
    (hp : p c = false) : ∃ part ∈ t.splitOnP p, c ∈ part := by
  induction t with
  | nil => cases hc
  | cons d t ih =>
      rw [List.splitOnP_cons_eq_if_modifyHead]
      rcases List.mem_cons.mp hc with rfl | htail
      · obtain ⟨part, parts, hparts⟩ := List.exists_cons_of_ne_nil (List.splitOnP_ne_nil p t)
        rw [if_neg (by simp [hp]), hparts]
        exact ⟨c :: part, List.mem_cons_self, List.mem_cons_self⟩
      · obtain ⟨part, hpart, hmem⟩ := ih htail
        by_cases hd : p d
        · rw [if_pos hd]
          exact ⟨part, List.mem_cons_of_mem _ hpart, hmem⟩
        · rw [if_neg hd]
          obtain ⟨first, parts, hparts⟩ := List.exists_cons_of_ne_nil (List.splitOnP_ne_nil p t)
          rw [hparts] at hpart ⊢
          rcases List.mem_cons.mp hpart with rfl | hrest
          · exact ⟨d :: part, List.mem_cons_self, List.mem_cons_of_mem d hmem⟩
          · exact ⟨part, List.mem_cons_of_mem _ hrest, hmem⟩

theorem commaParts_word {t : Text} (hne : t ≠ []) (ht : ∀ c ∈ t, c ≠ ',' ∧ ¬ Text.isBlank c) :
    commaParts t = [t] := by
  have hsplit : t.splitOnP (· == ',') = [t] :=
    List.splitOnP_eq_singleton fun c hc => beq_false_of_ne (ht c hc).1
  have htrim : Text.trim t = t := by
    simpa using Text.trim_append hne (fun c hc => (ht c hc).2) (List.forall_mem_nil _)
      (List.forall_mem_nil _)
  have hempty : t.isEmpty = false := by simpa using hne
  simp [commaParts, hsplit, htrim, hempty]

/-- A list is not read if anything in it is no part of an identifier. -/
theorem listNames?_eq_none {t : Text} {c : Char} (hc : c ∈ t) (hcomma : c ≠ ',')
    (hblank : ¬ Text.isBlank c) (hpart : ¬ Text.isIdentifierPart c) : listNames? t = none := by
  have hsep : (c == ',') = false := beq_eq_false_iff_ne.mpr hcomma
  obtain ⟨part, hmem, hc'⟩ := exists_mem_splitOnP hc (p := (· == ',')) hsep
  have htrim : c ∈ Text.trim part := Text.mem_trim hc' hblank
  have hmem : Text.trim part ∈ commaParts t := by
    refine List.mem_filter.mpr ⟨List.mem_map.mpr ⟨part, hmem, rfl⟩, ?_⟩
    simpa using List.ne_nil_of_mem htrim
  refine if_neg fun hall => hpart ?_
  exact Text.isIdentifierPart_of_mem (List.all_eq_true.mp hall _ hmem) c htrim

end Listener

/-! ### Handlers with a list -/

/-- The text of a parameter list, without its parentheses. -/
structure ParameterList where
  text : Text
  isPlain : ∀ c ∈ text, BraceState.isPlain c
  pairsParens : text.pairsParens 0

/-- The ways to write a handler with a list. -/
inductive HandlerForm where
  | arrow
  | function

/-- What stands in front of the list. -/
def HandlerForm.lead : HandlerForm → Text
  | arrow => ", ".toList
  | function => ", function ".toList

/-- What stands between the list and the block. -/
def HandlerForm.tail : HandlerForm → Text
  | arrow => " => ".toList
  | function => " ".toList

theorem HandlerForm.all_isInert (form : HandlerForm) :
    form.lead.all isInert ∧ form.tail.all isInert := by
  cases form <;> decide

namespace ListenerCall

section List

variable (form : HandlerForm) (list : ParameterList) {observed body : Text}
  (hobserved : Listener.isAttributeName observed) (hbody : body.IsBalanced)

/-- The call whose handler has the parameter list. -/
def ofList : ListenerCall where
  observed := observed
  head := form.lead ++ '(' :: (list.text ++ ')' :: form.tail)
  body := body
  isAttributeName_observed := hobserved
  walk_head := by
    obtain ⟨hlead, htail⟩ := form.all_isInert
    have hwalk : ArgumentWalk 1 .code form.tail 1 .code := .of_isInert (List.all_eq_true.mp htail)
    refine .inert_append (List.all_eq_true.mp hlead) QuoteState.isProper_code rfl (.openParen ?_)
    exact .pairs_append list.isPlain list.pairsParens (.closeParen hwalk)
  isBalanced_body := hbody

theorem liftListeners_list {v : Vocabulary} (hne : v.listenerToken ≠ []) :
    liftListeners v ((ofList form list hobserved hbody).script v) =
      (ofList form list hobserved hbody).outcome v
        (Listener.listNames? list.text.firstList) := by
  have hlead : ')' ∉ form.lead := by cases form <;> decide
  rw [liftListeners_script _ hne]
  exact congrArg _ (Listener.parameters?_list hlead list.text form.tail)

/-- Of a handler with a list, the first parameters are taken that stand in the first pair of
parentheses with none inside. The parameters are those of the list, and a list that holds anything
but identifiers is refused, if and only if it has no parentheses inside, or the first pair holds
anything but identifiers as well. -/
theorem liftListeners_parameterList {v : Vocabulary} (hne : v.listenerToken ≠ []) :
    let call := ofList form list hobserved hbody
    liftListeners v (call.script v) =
      call.outcome v (Listener.listNames? list.text.firstList) ∧
    (liftListeners v (call.script v) = call.outcome v (Listener.listNames? list.text) ↔
      '(' ∉ list.text ∨ Listener.listNames? list.text.firstList = none) := by
  intro call
  have hread : liftListeners v (call.script v) =
      call.outcome v (Listener.listNames? list.text.firstList) :=
    liftListeners_list form list hobserved hbody hne
  refine ⟨hread, ?_⟩
  rw [hread]
  by_cases hopen : '(' ∈ list.text
  · have hnone : Listener.listNames? list.text = none :=
      Listener.listNames?_eq_none hopen (by decide) (by decide) (by decide)
    rw [hnone]
    cases Listener.listNames? list.text.firstList with
    | none => exact iff_of_true rfl (Or.inr rfl)
    | some names =>
        refine iff_of_false ?_ (not_or.mpr ⟨not_not.mpr hopen, Option.some_ne_none names⟩)
        intro heq
        cases heq
  · have hself : list.text.firstList = list.text :=
      Text.firstList_eq_self hopen (Text.notMem_of_pairsParens list.pairsParens hopen)
    rw [hself]
    exact iff_of_true rfl (Or.inl hopen)

end List

/-- A default value that is a call with one argument: the argument is taken for the parameter, where
the list should be refused. -/
theorem defaultValue_taken :
    Vocabulary.standard.listenerToken ≠ [] ∧ Listener.isAttributeName "a".toList ∧
    Text.IsBalanced " use(o, n); ".toList ∧ Listener.listNames? "o, n = f(g)".toList = none ∧
    (let script :=
      "addChangeListener(\"a\", function (o, n = f(g)) \x7b use(o, n); \x7d)".toList
    liftListeners .standard script = .ok ⟨[.replace script []],
      [⟨"a".toList, "use(o, n);".toList, none, some "g".toList⟩]⟩) := by
  have hne : Vocabulary.standard.listenerToken ≠ [] := by decide
  let list : ParameterList :=
    { text := "o, n = f(g)".toList
      isPlain := List.all_eq_true.mp (by decide)
      pairsParens := by decide }
  have hobserved : Listener.isAttributeName "a".toList := by decide
  have hbody : Text.IsBalanced " use(o, n); ".toList := Text.isBalanced_of_all (by decide)
  obtain ⟨hread, -⟩ := liftListeners_parameterList .function list hobserved hbody hne
  exact ⟨hne, hobserved, hbody, by decide, hread⟩

end ListenerCall

/-! ### Handlers with a lone parameter -/

/-- A word in the place of a parameter: letters of any script, digits, `_` and `$`. -/
structure ParameterWord where
  text : Text
  ne_nil : text ≠ []
  isWordPart : ∀ c ∈ text, CodeToken.isWordPart c ∧ ¬ Text.isBlank c

namespace ParameterWord

variable (word : ParameterWord)

theorem ne_of_mem {c d : Char} (hc : c ∈ word.text) (hd : ¬ CodeToken.isWordPart d) : c ≠ d :=
  fun heq => hd (heq ▸ (word.isWordPart c hc).1)

theorem isInert_of_mem {c : Char} (hc : c ∈ word.text) : isInert c :=
  isInert_of_class (by decide) (by decide) (word.isWordPart c hc).1

/-- The word as a list of its own. -/
def list : ParameterList where
  text := word.text
  isPlain _ hc := (isInert_iff.mp (word.isInert_of_mem hc)).1
  pairsParens := Text.pairsParens_of_isInert fun _ hc => word.isInert_of_mem hc

theorem listNames?_list :
    Listener.listNames? word.list.text.firstList =
      if Text.isIdentifier word.text then some [word.text] else none := by
  have hself : word.text.firstList = word.text := by
    refine Text.firstList_eq_self ?_ ?_ <;> exact fun hmem => word.ne_of_mem hmem (by decide) rfl
  have hparts : Listener.commaParts word.text = [word.text] :=
    Listener.commaParts_word word.ne_nil fun c hc =>
      ⟨word.ne_of_mem hc (by decide), (word.isWordPart c hc).2⟩
  show Listener.listNames? word.text.firstList = _
  rw [hself, Listener.listNames?, hparts]
  simp

end ParameterWord

namespace Listener

theorem arrowParameter?_cons (c : Char) (t : Text) :
    arrowParameter? (c :: t) = (arrowParameterAt? (c :: t)).or (arrowParameter? t) := by
  rw [arrowParameter?]
  cases arrowParameterAt? (c :: t) <;> rfl

/-- In front of an arrow, a parameter begins where the rest of the word is an identifier. -/
theorem arrowParameterAt?_word {c : Char} {t : Text}
    (ht : ∀ d ∈ t, CodeToken.isWordPart d ∧ ¬ Text.isBlank d) :
    arrowParameterAt? (c :: (t ++ " => ".toList)) =
      if Text.isIdentifier (c :: t) then some (c :: t) else none := by
  rw [arrowParameterAt?, Text.isIdentifier]
  by_cases hstart : Text.isIdentifierStart c
  · rw [if_pos hstart, hstart, Bool.true_and]
    by_cases hall : t.all Text.isIdentifierPart
    · have htake : (t ++ " => ".toList).takeWhile Text.isIdentifierPart = t :=
        CodeToken.takeWhile_append_eq_left.mpr ⟨List.all_eq_true.mp hall, by decide⟩
      rw [if_pos hall, htake, CodeToken.dropWhile_of_takeWhile htake]
      rfl
    · rw [if_neg hall]
      -- The identifier ends inside of the word, so no arrow follows it.
      have hne : t.dropWhile Text.isIdentifierPart ≠ [] := fun hnil =>
        hall (List.all_eq_true.mpr (List.dropWhile_eq_nil_iff.mp hnil))
      obtain ⟨d, u, hu⟩ := List.exists_cons_of_ne_nil hne
      have hd : d ∈ t := (List.dropWhile_sublist _).subset (hu ▸ List.mem_cons_self)
      have hdrop : (t ++ " => ".toList).dropWhile Text.isIdentifierPart =
          d :: (u ++ " => ".toList) := by
        rw [List.dropWhile_append, hu]
        rfl
      have htrim : Text.trimStart (d :: (u ++ " => ".toList)) = d :: (u ++ " => ".toList) :=
        List.dropWhile_cons_of_neg (ht d hd).2
      rw [hdrop, htrim]
      split
      · rename_i heq
        obtain ⟨rfl, -⟩ := List.cons.inj heq
        exact absurd (ht _ hd).1 (by decide)
      · rfl
  · rw [if_neg hstart, Bool.eq_false_iff.mpr hstart]
    rfl

/-- The longest identifier is taken in which the word in front of the arrow ends. -/
theorem arrowParameter?_word {t : Text}
    (ht : ∀ d ∈ t, CodeToken.isWordPart d ∧ ¬ Text.isBlank d) :
    arrowParameter? (t ++ " => ".toList) = t.tails.find? Text.isIdentifier := by
  induction t with
  | nil => rfl
  | cons c t ih =>
      obtain ⟨-, htail⟩ := List.forall_mem_cons.mp ht
      rw [List.cons_append, arrowParameter?_cons, arrowParameterAt?_word htail, ih htail,
        List.tails_cons, List.find?_cons]
      cases Text.isIdentifier (c :: t) <;> rfl

end Listener

/-- Two scripts make the same listeners, or both have a malformed one. -/
def SameListeners : Except Fault LiftedListeners → Except Fault LiftedListeners → Prop
  | .ok x, .ok y => x.listeners = y.listeners
  | .error f, .error g => f.cause.kind = .listener ∧ g.cause.kind = .listener
  | _, _ => False

namespace ListenerCall

variable (word : ParameterWord) {observed body : Text}
  (hobserved : Listener.isAttributeName observed) (hbody : body.IsBalanced)

/-- The call whose handler has the word as its lone parameter, without parentheses. -/
def ofBare : ListenerCall where
  observed := observed
  head := ", ".toList ++ (word.text ++ " => ".toList)
  body := body
  isAttributeName_observed := hobserved
  walk_head := .of_isInert (List.forall_mem_append.mpr ⟨List.all_eq_true.mp (by decide),
    List.forall_mem_append.mpr ⟨fun _ hc => word.isInert_of_mem hc,
      List.all_eq_true.mp (by decide)⟩⟩)
  isBalanced_body := hbody

theorem parameters?_bare :
    Listener.parameters? (ofBare word hobserved hbody).head =
      some (word.text.tails.find? Text.isIdentifier).toList := by
  have hclose : ')' ∉ (ofBare word hobserved hbody).head := by
    have hword : ')' ∉ word.text := fun hmem => word.ne_of_mem hmem (by decide) rfl
    simp [ofBare, hword]
  rw [Listener.parameters?, Listener.parenthesized?, Listener.parenthesizedFrom_eq_none hclose]
  -- Neither the comma nor the blank behind it begins an identifier.
  show some (Listener.arrowParameter? (',' :: ' ' :: (word.text ++ " => ".toList))).toList = _
  rw [Listener.arrowParameter?_cons, Listener.arrowParameter?_cons,
    Listener.arrowParameter?_word word.isWordPart]
  rfl

/-- Of a handler without a list, the longest identifier in which the word in front of the arrow ends
is taken for its parameter, if there is one; as a list in parentheses, the word is refused unless it
is an identifier. So the two ways to write a lone parameter agree if and only if it is one. -/
theorem liftListeners_bareParameter {v : Vocabulary} (hne : v.listenerToken ≠ []) :
    let bare := ofBare word hobserved hbody
    let listed := ofList .arrow word.list hobserved hbody
    liftListeners v (bare.script v) =
      bare.outcome v (some (word.text.tails.find? Text.isIdentifier).toList) ∧
    liftListeners v (listed.script v) =
      listed.outcome v (if Text.isIdentifier word.text then some [word.text] else none) ∧
    (SameListeners (liftListeners v (bare.script v)) (liftListeners v (listed.script v)) ↔
      Text.isIdentifier word.text) := by
  intro bare listed
  have hbare : liftListeners v (bare.script v) =
      bare.outcome v (some (word.text.tails.find? Text.isIdentifier).toList) := by
    rw [bare.liftListeners_script hne, parameters?_bare]
  have hlisted : liftListeners v (listed.script v) =
      listed.outcome v (if Text.isIdentifier word.text then some [word.text] else none) := by
    rw [liftListeners_list .arrow word.list hobserved hbody hne, word.listNames?_list]
  refine ⟨hbare, hlisted, ?_⟩
  rw [hbare, hlisted]
  by_cases hid : Text.isIdentifier word.text
  · have hfind : word.text.tails.find? Text.isIdentifier = some word.text := by
      obtain ⟨c, t, hword⟩ := List.exists_cons_of_ne_nil word.ne_nil
      rw [hword] at hid ⊢
      rw [List.tails_cons, List.find?_cons_of_pos hid]
    rw [if_pos hid, hfind]
    exact iff_of_true rfl hid
  · rw [if_neg hid]
    exact iff_of_false id hid

/-- A letter outside of ASCII in front of the parameter: without parentheses the rest of the word is
taken for the parameter, in parentheses the word is refused. -/
theorem accentedWord_taken :
    Vocabulary.standard.listenerToken ≠ [] ∧ Listener.isAttributeName "a".toList ∧
    Text.IsBalanced "f(a)".toList ∧
    (let script := "addChangeListener(\"a\", \u00e9a => \x7bf(a)\x7d)".toList
    liftListeners .standard script = .ok ⟨[.replace script []],
      [⟨"a".toList, "f(newValue)".toList, none, some "a".toList⟩]⟩) ∧
    liftListeners .standard "addChangeListener(\"a\", (\u00e9a) => \x7bf(a)\x7d)".toList =
      .error ⟨.listenerParameters "a".toList, 21⟩ := by
  have hne : Vocabulary.standard.listenerToken ≠ [] := by decide
  let word : ParameterWord :=
    { text := ['\u00e9', 'a']
      ne_nil := List.cons_ne_nil _ _
      isWordPart := by
        rw [List.forall_mem_cons, List.forall_mem_singleton]
        decide }
  have hobserved : Listener.isAttributeName "a".toList := by decide
  have hbody : Text.IsBalanced "f(a)".toList := Text.isBalanced_of_all (by decide)
  obtain ⟨hbare, hlisted, -⟩ := liftListeners_bareParameter word hobserved hbody hne
  exact ⟨hne, hobserved, hbody, hbare, hlisted⟩

end ListenerCall

end ElementScript
