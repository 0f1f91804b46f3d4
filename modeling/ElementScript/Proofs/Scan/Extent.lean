import ElementScript.Diagnostic
import ElementScript.Proofs.Scan.Block

/-!
# The extent of a block

A grammar says what may stand in a block (`BlockText`): plain characters, escaped ones, literals
with whatever they hold, and blocks. The flat scanner knows its texts by counting
(`Text.isBalanced_iff_blockText`), so a block is found exactly if the count comes down to zero, and
it ends there (`Block.firstFrom_exact`). If it does not come down, the count is the number of braces
that are missing (`Block.firstFrom_missing`).
-/

namespace ElementScript

open BraceState

/-! ### What may stand in a block -/

/-- The rest of a literal, from behind its opening quote to its closing one. Braces and other quotes
are text of it, and behind a backslash so is everything. -/
inductive LiteralTail (quote : Char) : Text → Prop where
  | close : LiteralTail quote [quote]
  | escape (c : Char) {t : Text} (rest : LiteralTail quote t) : LiteralTail quote ('\\' :: c :: t)
  | char {c : Char} {t : Text} (hslash : c ≠ '\\') (hquote : c ≠ quote)
      (rest : LiteralTail quote t) : LiteralTail quote (c :: t)

/-- The texts that may stand between the braces of a block. -/
inductive BlockText : Text → Prop where
  | nil : BlockText []
  | plain {c : Char} {t : Text} (hc : isPlain c) (rest : BlockText t) : BlockText (c :: t)
  | escape (c : Char) {t : Text} (rest : BlockText t) : BlockText ('\\' :: c :: t)
  | literal {quote : Char} {u t : Text} (hquote : Text.isQuote quote) (htail : LiteralTail quote u)
      (rest : BlockText t) : BlockText (quote :: (u ++ t))
  | block {body t : Text} (hbody : BlockText body) (rest : BlockText t) :
      BlockText ('{' :: (body ++ '}' :: t))

/-- The rest of a literal is passed at one depth, and leads back to code. -/
theorem LiteralTail.run_eq {quote : Char} {u : Text} (h : LiteralTail quote u)
    (hquote : Text.isQuote quote) (depth : Int) :
    (BraceState.mk ⟨some quote, false⟩ depth).StaysAbove depth u ∧
      (BraceState.mk ⟨some quote, false⟩ depth).run u = atDepth depth := by
  have hslash := Text.ne_backslash_of_isQuote hquote
  induction h with
  | close =>
      have hclose : (BraceState.mk ⟨some quote, false⟩ depth).step quote = atDepth depth :=
        step_closeQuote hslash
      rw [run_cons, hclose, staysAbove_cons, hclose, staysAbove_nil]
      exact ⟨⟨Int.le_refl depth, Int.le_refl depth⟩, rfl⟩
  | escape c rest ih =>
      have hescape : (BraceState.mk ⟨some quote, false⟩ depth).step '\\' =
          ⟨⟨some quote, true⟩, depth⟩ := step_literal
      have hescaped : (BraceState.mk ⟨some quote, true⟩ depth).step c =
          ⟨⟨some quote, false⟩, depth⟩ := step_literal
      rw [run_cons, hescape, run_cons, hescaped, staysAbove_cons, hescape, staysAbove_cons,
        hescaped]
      exact ⟨⟨Int.le_refl depth, Int.le_refl depth, ih.1⟩, ih.2⟩
  | @char c t hc hne rest ih =>
      have hstep : (BraceState.mk ⟨some quote, false⟩ depth).step c =
          ⟨⟨some quote, false⟩, depth⟩ := step_literal_of_ne hc hne
      rw [run_cons, hstep, staysAbove_cons, hstep]
      exact ⟨⟨Int.le_refl depth, ih.1⟩, ih.2⟩

/-- A literal that has been left was closed. -/
theorem exists_literalTail {quote : Char} {t : Text}
    (h : QuoteState.run ⟨some quote, false⟩ t = .code) :
    ∃ u rest, t = u ++ rest ∧ LiteralTail quote u := by
  -- By induction on the length: an escaped character is read with the backslash before it.
  induction hn : t.length using Nat.strongRecOn generalizing t with
  | ind n ih =>
      subst hn
      cases t with
      | nil => cases h
      | cons c t =>
          rw [QuoteState.run_cons, QuoteState.step] at h
          by_cases hslash : c = '\\'
          · subst hslash
            cases t with
            | nil => cases h
            | cons d t =>
                obtain ⟨u, rest, rfl, hu⟩ := ih t.length (by grind) h rfl
                exact ⟨'\\' :: d :: u, rest, rfl, .escape d hu⟩
          · by_cases hquote : c = quote
            · subst hquote
              exact ⟨[c], t, rfl, .close⟩
            · simp only [hslash, hquote, if_false, Bool.false_eq_true] at h
              obtain ⟨u, rest, rfl, hu⟩ := ih t.length (by simp) h rfl
              exact ⟨c :: u, rest, rfl, .char hslash hquote hu⟩

namespace Text

theorem isBalanced_escape (c : Char) : IsBalanced ['\\', c] := by
  have hescape : (atDepth 0).step '\\' = ⟨⟨none, true⟩, 0⟩ := rfl
  have hescaped : (BraceState.mk ⟨none, true⟩ 0).step c = atDepth 0 := rfl
  refine ⟨?_, ?_⟩
  · rw [staysAbove_cons, hescape, staysAbove_cons, hescaped, staysAbove_nil]
    exact ⟨Int.le_refl 0, Int.le_refl 0, Int.le_refl 0⟩
  · rw [run_cons, hescape, run_cons, hescaped, run_nil]

theorem isBalanced_literal {quote : Char} {u : Text} (hquote : isQuote quote)
    (htail : LiteralTail quote u) : IsBalanced (quote :: u) := by
  have hopen : (atDepth 0).step quote = ⟨⟨some quote, false⟩, 0⟩ := step_openQuote hquote
  obtain ⟨hstays, hrun⟩ := htail.run_eq hquote 0
  refine ⟨?_, ?_⟩
  · rw [staysAbove_cons, hopen]
    exact ⟨Int.le_refl 0, hstays⟩
  · rw [run_cons, hopen, hrun]

/-- What may stand in a block is balanced. -/
theorem isBalanced_of_blockText {t : Text} (h : BlockText t) : t.IsBalanced := by
  induction h with
  | nil => exact isBalanced_nil
  | @plain c t hc rest ih =>
      have hplain : IsBalanced [c] := isBalanced_of_isPlain (List.forall_mem_singleton.mpr hc)
      exact hplain.append ih
  | escape c rest ih => exact (isBalanced_escape c).append ih
  | literal hquote htail rest ih => exact (isBalanced_literal hquote htail).append ih
  | block hbody rest ihbody ih =>
      rw [braces_append]
      exact ihbody.braces.append ih

/-- A character that is not plain is a brace, a backslash or a quote. -/
theorem isPlain_cases (c : Char) : isPlain c ∨ c = '{' ∨ c = '}' ∨ c = '\\' ∨ isQuote c := by
  by_cases hplain : isPlain c
  · exact Or.inl hplain
  · refine Or.inr ?_
    simp only [isPlain, Bool.and_eq_true, bne_iff_ne, Bool.not_eq_true',
      Decidable.not_and_iff_or_not, Decidable.not_not, Bool.not_eq_false] at hplain
    rcases hplain with ((hopen | hclose) | hslash) | hquote
    · exact Or.inl hopen
    · exact Or.inr (Or.inl hclose)
    · exact Or.inr (Or.inr (Or.inl hslash))
    · exact Or.inr (Or.inr (Or.inr hquote))

/-- What is balanced may stand in a block. -/
theorem IsBalanced.blockText {t : Text} (h : t.IsBalanced) : BlockText t := by
  -- By induction on the length: a literal or a block is read as a whole.
  induction hn : t.length using Nat.strongRecOn generalizing t with
  | ind n ih =>
      subst hn
      cases t with
      | nil => exact .nil
      | cons c t =>
          rcases isPlain_cases c with hc | rfl | rfl | rfl | hquote
          · have hplain : IsBalanced [c] :=
              isBalanced_of_isPlain fun d hd => List.mem_singleton.mp hd ▸ hc
            exact .plain hc (ih t.length (by simp) (hplain.of_append h) rfl)
          · -- The count comes down again, so the block is closed.
            have hopen : (atDepth 0).step '{' = atDepth 1 := rfl
            have hrun : (atDepth 1).run t = atDepth 0 := h.2
            cases hclose : closeBlock t with
            | error s =>
                have hstays := (closeBlock_eq_error_iff.mp hclose).1 t List.prefix_rfl
                rw [hrun] at hstays
                exact absurd hstays (by decide)
            | ok result =>
                obtain ⟨body, rest⟩ := result
                obtain ⟨rfl, hbody⟩ := closeBlock_eq_ok_iff.mp hclose
                rw [braces_append] at h
                exact .block (ih body.length (by grind) hbody rfl)
                  (ih rest.length (by grind) (hbody.braces.of_append h) rfl)
          · have hclose := h.1 ['}'] (List.prefix_append ['}'] t)
            exact absurd hclose (by decide)
          · cases t with
            | nil => exact absurd h.2 (by decide)
            | cons d t =>
                exact .escape d
                  (ih t.length (by grind) ((isBalanced_escape d).of_append h) rfl)
          · have hrun : (BraceState.mk ⟨some c, false⟩ 0).run t = atDepth 0 := by
              rw [← step_openQuote hquote, ← run_cons, h.2]
            have hquotes := run_toQuoteState ⟨⟨some c, false⟩, 0⟩ t
            rw [hrun] at hquotes
            obtain ⟨u, rest, rfl, htail⟩ := exists_literalTail hquotes.symm
            exact .literal hquote htail (ih rest.length (by grind)
              ((isBalanced_literal hquote htail).of_append h) rfl)

/-- The flat scanner knows what may stand in a block by counting. -/
theorem isBalanced_iff_blockText {t : Text} : t.IsBalanced ↔ BlockText t :=
  ⟨IsBalanced.blockText, isBalanced_of_blockText⟩

end Text

/-! ### Where a block opens -/

namespace Block

/-- The first opening brace of a script at or after a place, with the text around it: `before` the
place, `head` between the place and the brace, and `inside` behind the brace. -/
structure Opens (script : Text) (start : Nat) (before head inside : Text) : Prop where
  text : script = before ++ (head ++ '{' :: inside)
  place : Text.byteSize before = start
  first : '{' ∉ head

variable {script before head inside : Text} {start : Nat}

/-- Text behind the script does not change where the block opens. -/
theorem Opens.append (h : Opens script start before head inside) (t : Text) :
    Opens (script ++ t) start before head (inside ++ t) := by
  refine ⟨?_, h.place, h.first⟩
  rw [h.text]
  simp

theorem Opens.firstFrom_eq (h : Opens script start before head inside) :
    firstFrom script start =
      match closeBlock inside with
      | .ok (body, _) => .ok (ofBody start (Text.byteSize (before ++ head)) body)
      | .error s => .error ((unclosedBlock s inside).shift (Text.byteSize (before ++ head))) := by
  obtain ⟨rfl, rfl, hhead⟩ := h
  rw [Text.byteSize_append]
  exact firstFrom_eq_closeBlock hhead

/-- No block is found where none opens. -/
theorem opens_or_firstFrom_eq (script : Text) (start : Nat) :
    (∃ before head inside, Opens script start before head inside) ∨
      firstFrom script start = .error ⟨.blockExpected, start⟩ := by
  unfold firstFrom
  split
  · exact Or.inr rfl
  · rename_i before rest hsplit
    obtain ⟨rfl, rfl⟩ := Text.splitAt?_eq_some_iff.mp hsplit
    dsimp only
    split
    · exact Or.inr rfl
    · rename_i c inside hinside
      obtain ⟨hrest, hfirst⟩ := eq_takeWhile_append_of_dropWhile hinside
      exact Or.inl ⟨before, _, inside, congrArg (before ++ ·) hrest, rfl, hfirst⟩

end Block

/-! ### Where it ends -/

/-- A block is closed exactly if the count comes down to zero. -/
theorem exists_closeBlock_eq_ok_iff {t : Text} :
    (∃ result, closeBlock t = .ok result) ↔ ∃ u, u <+: t ∧ ((atDepth 1).run u).depth = 0 := by
  constructor
  · intro h
    obtain ⟨⟨body, rest⟩, hclose⟩ := h
    obtain ⟨rfl, hbody⟩ := closeBlock_eq_ok_iff.mp hclose
    refine ⟨body ++ ['}'], ⟨rest, by simp⟩, ?_⟩
    rw [run_append, hbody.run_atDepth]
    rfl
  · intro h
    obtain ⟨u, hu, hzero⟩ := h
    cases hclose : closeBlock t with
    | ok result => exact ⟨result, rfl⟩
    | error s =>
        have hpos := (closeBlock_eq_error_iff.mp hclose).1 u hu
        omega

/-- A block that is not closed is reported as such, or for a literal that is left open in it. -/
theorem unclosedBlock_kind (s : BraceState) (t : Text) :
    (unclosedBlock s t).cause.kind = .block := by
  unfold unclosedBlock
  split <;> rfl

namespace Block

/-- Where a block is found, it opens, and its body is balanced. -/
theorem firstFrom_eq_ok {script : Text} {start : Nat} {block : Block}
    (h : firstFrom script start = .ok block) :
    ∃ before head body rest, Opens script start before head (body ++ '}' :: rest) ∧
      block = ofBody start (Text.byteSize (before ++ head)) body ∧ body.IsBalanced := by
  rcases opens_or_firstFrom_eq script start with ⟨before, head, inside, hopens⟩ | herror
  · rw [hopens.firstFrom_eq] at h
    cases hclose : closeBlock inside with
    | error s =>
        rw [hclose] at h
        cases h
    | ok result =>
        obtain ⟨body, rest⟩ := result
        rw [hclose] at h
        obtain ⟨rfl, hbody⟩ := closeBlock_eq_ok_iff.mp hclose
        exact ⟨before, head, body, rest, hopens, (Except.ok.inj h).symm, hbody⟩
  · rw [herror] at h
    cases h

/-- A block that opens on a balanced body is found, and ends with the brace behind that body. -/
theorem Opens.firstFrom_eq_ok {script before head body rest : Text} {start : Nat}
    (h : Opens script start before head (body ++ '}' :: rest)) (hbody : body.IsBalanced) :
    firstFrom script start = .ok ⟨start, Text.byteSize (before ++ head),
      Text.byteSize (before ++ (head ++ '{' :: (body ++ ['}'])))⟩ := by
  have hstop : (ofBody start (Text.byteSize (before ++ head)) body).stop =
      Text.byteSize (before ++ (head ++ '{' :: (body ++ ['}']))) := by
    rw [← h.place, Text.byteSize_append]
    exact stop_ofBody
  rw [h.firstFrom_eq, closeBlock_eq_ok_iff.mpr ⟨rfl, hbody⟩, ← hstop]
  rfl

/-- The search for a block has no faults but about blocks. -/
theorem firstFrom_fault_kind {script : Text} {start : Nat} {fault : Fault}
    (h : firstFrom script start = .error fault) : fault.cause.kind = .block := by
  rcases opens_or_firstFrom_eq script start with ⟨before, head, inside, hopens⟩ | herror
  · rw [hopens.firstFrom_eq] at h
    cases hclose : closeBlock inside with
    | error s =>
        rw [hclose] at h
        cases h
        exact unclosedBlock_kind s inside
    | ok result =>
        rw [hclose] at h
        cases h
  · rw [herror] at h
    cases h
    rfl

/-- A block is found exactly if one opens and the flat scanner, started behind its brace at depth
one, comes down to depth zero. Then the block ends where this happens first, it holds what may stand
in a block, and it is found whatever stands behind it. A brace behind what may stand in a block is
where a block ends, so the grammar by itself says which blocks are found. In all other cases the
search is refused with a fault about blocks. -/
theorem firstFrom_exact (script : Text) (start : Nat) :
    ((∃ block, firstFrom script start = .ok block) ↔
      ∃ before head inside, Opens script start before head inside ∧
        ∃ u, u <+: inside ∧ ((atDepth 1).run u).depth = 0) ∧
    (∀ block, firstFrom script start = .ok block →
      ∃ before head body rest, Opens script start before head (body ++ '}' :: rest) ∧
        block = ⟨start, Text.byteSize (before ++ head),
          Text.byteSize (before ++ (head ++ '{' :: (body ++ ['}'])))⟩ ∧
        ((atDepth 1).run (body ++ ['}'])).depth = 0 ∧
        (∀ u, u <+: body → 0 < ((atDepth 1).run u).depth) ∧
        BlockText body ∧
        ∀ other, firstFrom (Text.takeBytes block.stop script ++ other) start = .ok block) ∧
    (∀ before head body rest, Opens script start before head (body ++ '}' :: rest) →
      BlockText body → firstFrom script start = .ok ⟨start, Text.byteSize (before ++ head),
        Text.byteSize (before ++ (head ++ '{' :: (body ++ ['}'])))⟩) ∧
    ((¬ ∃ block, firstFrom script start = .ok block) →
      ∃ fault, firstFrom script start = .error fault ∧
        (Diagnostic.ofFault script fault).kind = .block) ∧
    (¬ script.IsPlace start → firstFrom script start = .error ⟨.blockExpected, start⟩) := by
  refine ⟨⟨?_, ?_⟩, ?_, ?_, ?_, ?_⟩
  · intro h
    obtain ⟨block, h⟩ := h
    obtain ⟨before, head, body, rest, hopens, -, hbody⟩ := firstFrom_eq_ok h
    exact ⟨before, head, _, hopens,
      exists_closeBlock_eq_ok_iff.mp ⟨_, closeBlock_eq_ok_iff.mpr ⟨rfl, hbody⟩⟩⟩
  · intro h
    obtain ⟨before, head, inside, hopens, hzero⟩ := h
    obtain ⟨result, hclose⟩ := exists_closeBlock_eq_ok_iff.mpr hzero
    rw [hopens.firstFrom_eq, hclose]
    exact ⟨_, rfl⟩
  · intro block h
    obtain ⟨before, head, body, rest, hopens, -, hbody⟩ := firstFrom_eq_ok h
    obtain rfl := Except.ok.inj (h.symm.trans (hopens.firstFrom_eq_ok hbody))
    refine ⟨before, head, body, rest, hopens, rfl, ?_, hbody.staysAbove 1,
      Text.isBalanced_iff_blockText.mp hbody, ?_⟩
    · rw [run_append, hbody.run_atDepth]
      rfl
    · intro other
      have hscript : script = before ++ (head ++ '{' :: (body ++ ['}'])) ++ rest := by
        rw [hopens.text]
        simp
      rw [hscript, Text.takeBytes_byteSize_append]
      have hother : Opens (before ++ (head ++ '{' :: (body ++ ['}'])) ++ other) start before head
          (body ++ '}' :: other) := ⟨by simp, hopens.place, hopens.first⟩
      exact hother.firstFrom_eq_ok hbody
  · exact fun before head body rest hopens hbody =>
      hopens.firstFrom_eq_ok (Text.isBalanced_iff_blockText.mpr hbody)
  · intro h
    cases hfirst : firstFrom script start with
    | ok block => exact absurd ⟨block, hfirst⟩ h
    | error fault => exact ⟨fault, rfl, firstFrom_fault_kind hfirst⟩
  · intro hplace
    rcases opens_or_firstFrom_eq script start with ⟨before, head, inside, hopens⟩ | herror
    · exact absurd ⟨before, head ++ '{' :: inside, hopens.text, hopens.place⟩ hplace
    · exact herror

end Block

/-! ### Missing braces -/

namespace BraceState

variable {depth : Int}

/-- Closing braces count down. -/
theorem run_closing (j : Nat) :
    (atDepth depth).run (List.replicate j '}') = atDepth (depth - j) := by
  induction j generalizing depth with
  | zero => simp
  | succ j ih =>
      have hclose : (atDepth depth).step '}' = atDepth (depth - 1) := rfl
      rw [List.replicate_succ, run_cons, hclose, ih]
      congr 1
      omega

theorem staysAbove_closing {j : Nat} {floor : Int} (h : floor + j ≤ depth) :
    (atDepth depth).StaysAbove floor (List.replicate j '}') := by
  intro u hu
  obtain ⟨hlength, hu⟩ := List.prefix_replicate_iff.mp hu
  rw [hu, run_closing, atDepth_depth]
  omega

end BraceState

/-- The scan of an open block that ends in code at depth `k` misses `k` closing braces. -/
theorem closeBlock_closing {t : Text} {k j : Nat} (hstays : (atDepth 1).StaysAbove 1 t)
    (hrun : (atDepth 1).run t = atDepth k) :
    (j < k → closeBlock (t ++ List.replicate j '}') = .error (atDepth (k - j : Nat))) ∧
      (k = j + 1 →
        closeBlock (t ++ List.replicate k '}') = .ok (t ++ List.replicate j '}', [])) := by
  have hstays' (hj : j < k) : (atDepth 1).StaysAbove 1 (t ++ List.replicate j '}') := by
    rw [staysAbove_append, hrun]
    exact ⟨hstays, staysAbove_closing (by omega)⟩
  have hrun' (hj : j < k) :
      (atDepth 1).run (t ++ List.replicate j '}') = atDepth (k - j : Nat) := by
    rw [run_append, hrun, run_closing, Int.ofNat_sub (Nat.le_of_lt hj)]
  constructor
  · intro hj
    exact closeBlock_eq_error_iff.mpr ⟨hstays' hj, (hrun' hj).symm⟩
  · intro hk
    subst hk
    have hj : j < j + 1 := Nat.lt_succ_self j
    have hone : j + 1 - j = 1 := Nat.add_sub_cancel_left j 1
    have hbody := hrun' hj
    rw [hone] at hbody
    rw [List.replicate_succ', ← List.append_assoc]
    exact closeBlock_eq_ok_iff.mpr ⟨rfl, Text.isBalanced_of_atDepth (hstays' hj) hbody⟩

theorem Text.byteSize_replicate (n : Nat) (c : Char) :
    byteSize (List.replicate n c) = n * c.utf8Size := by
  induction n with
  | zero => simp
  | succ n ih => rw [List.replicate_succ, byteSize_cons, ih, Nat.succ_mul, Nat.add_comm]

namespace Block

variable {script before head inside : Text} {start k offset : Nat}

/-- A script opens its first block in one way. -/
theorem Opens.unique {before' head' inside' : Text} (h : Opens script start before head inside)
    (h' : Opens script start before' head' inside') : inside = inside' := by
  obtain ⟨rfl, rfl, hfirst⟩ := h
  obtain ⟨htext, hplace, hfirst'⟩ := h'
  obtain ⟨-, hrest⟩ := Text.append_inj_of_byteSize htext hplace.symm
  have hinside := (takeWhile_dropWhile_of_notMem hfirst inside).2
  rw [hrest, (takeWhile_dropWhile_of_notMem hfirst' inside').2] at hinside
  exact (List.cons.inj hinside).2.symm

/-- A block is reported to miss braces if its scan stays inside and ends outside of literals. -/
theorem Opens.run_of_missing (hopens : Opens script start before head inside)
    (h : firstFrom script start = .error ⟨.blockNeverClosed k, offset⟩) :
    offset = Text.byteSize (before ++ head) ∧ (atDepth 1).StaysAbove 1 inside ∧
      ((atDepth 1).run inside).quote = none ∧ ((atDepth 1).run inside).depth = k := by
  rw [hopens.firstFrom_eq] at h
  cases hclose : closeBlock inside with
  | ok result =>
      rw [hclose] at h
      cases h
  | error s =>
      rw [hclose] at h
      obtain ⟨hstays, rfl⟩ := closeBlock_eq_error_iff.mp hclose
      have hpos := hstays inside List.prefix_rfl
      dsimp only [unclosedBlock] at h
      split at h
      · cases h
      · rename_i hquote
        cases h
        exact ⟨rfl, hstays, hquote, by omega⟩

/-- If a block is not closed, and the scan of it does not end on a backslash, then the braces that
are reported missing close it when they are put behind the script, and with fewer of them the rest
is reported missing. The report points at the brace that opens the block. -/
theorem firstFrom_missing (h : firstFrom script start = .error ⟨.blockNeverClosed k, offset⟩) :
    ∃ before head inside, Opens script start before head inside ∧
      offset = Text.byteSize (before ++ head) ∧
      (Diagnostic.ofFault script ⟨.blockNeverClosed k, offset⟩).position?.map (·.byte) =
        some offset ∧
      (¬ ((atDepth 1).run inside).escaped →
        firstFrom (script ++ List.replicate k '}') start =
            .ok ⟨start, offset, Text.byteSize script + k⟩ ∧
          ∀ j < k, firstFrom (script ++ List.replicate j '}') start =
            .error ⟨.blockNeverClosed (k - j), offset⟩) := by
  rcases opens_or_firstFrom_eq script start with ⟨before, head, inside, hopens⟩ | herror
  · obtain ⟨rfl, hstays, hquote, hdepth⟩ := hopens.run_of_missing h
    refine ⟨before, head, inside, hopens, rfl, ?_, ?_⟩
    · have hplace : script.IsPlace (Text.byteSize (before ++ head)) :=
        ⟨before ++ head, '{' :: inside, by rw [hopens.text, List.append_assoc], rfl⟩
      exact congrArg some (Position.byte_locate_of_isPlace hplace)
    · intro hescaped
      have hcode : ((atDepth 1).run inside).inCode := by
        simp [QuoteState.inCode, hquote, hescaped]
      have hrun := eq_atDepth_of_inCode hcode
      rw [hdepth] at hrun
      refine ⟨?_, ?_⟩
      · have hpos := hstays inside List.prefix_rfl
        obtain ⟨j, rfl⟩ : ∃ j, k = j + 1 := Nat.exists_eq_succ_of_ne_zero (by omega)
        have hbrace (n : Nat) : Text.byteSize (List.replicate n '}') = n := by
          rw [Text.byteSize_replicate]
          exact Nat.mul_one n
        have hopen : '{'.utf8Size = 1 := by decide
        rw [(hopens.append _).firstFrom_eq, (closeBlock_closing hstays hrun).2 rfl, hopens.text]
        simp only [ofBody, Text.byteSize_append, Text.byteSize_cons, hbrace, hopen,
          Except.ok.injEq, Block.mk.injEq, true_and]
        omega
      · intro j hj
        rw [(hopens.append _).firstFrom_eq, (closeBlock_closing hstays hrun).1 hj]
        rfl
  · rw [herror] at h
    cases h

/-- Two blocks are open, and a brace in a literal closes neither. -/
theorem openBlocks_firstFrom_missing :
    firstFrom "m() \x7b if (x) \x7b s = '\x7d';".toList 2 = .error ⟨.blockNeverClosed 2, 4⟩ ∧
      firstFrom "m() \x7b if (x) \x7b s = '\x7d';\x7d".toList 2 =
        .error ⟨.blockNeverClosed 1, 4⟩ ∧
      firstFrom "m() \x7b if (x) \x7b s = '\x7d';\x7d\x7d".toList 2 = .ok ⟨2, 4, 25⟩ := by
  have hmissing : firstFrom "m() \x7b if (x) \x7b s = '\x7d';".toList 2 =
      .error ⟨.blockNeverClosed 2, 4⟩ := rfl
  obtain ⟨before, head, inside, hopens, -, -, hclosed⟩ := firstFrom_missing hmissing
  have hopens' : Opens "m() \x7b if (x) \x7b s = '\x7d';".toList 2 ['m', '('] [')', ' ']
      " if (x) \x7b s = '\x7d';".toList := ⟨by decide, by decide, by decide⟩
  rw [hopens.unique hopens'] at hclosed
  obtain ⟨hok, herror⟩ := hclosed (by decide)
  exact ⟨hmissing, herror 1 (by decide), hok⟩

end Block

end ElementScript
