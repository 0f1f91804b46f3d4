import ElementScript.Proofs.Scan.Balance
import ElementScript.Scan.Block

/-!
# Finding a block

A block is found behind text without an opening brace, and it closes behind a balanced body
(`Block.firstFrom_eq_ok_iff`). The parts of a script that a block names are then read off that cut
of the script.
-/

namespace ElementScript

/-- A list is split at the first place at which it has a value. -/
theorem eq_takeWhile_append_of_dropWhile {α : Type} [BEq α] [LawfulBEq α] {a b : α}
    {l behind : List α} (h : l.dropWhile (· != a) = b :: behind) :
    l = l.takeWhile (· != a) ++ a :: behind ∧ a ∉ l.takeWhile (· != a) := by
  induction l with
  | nil => cases h
  | cons c l ih =>
      by_cases hc : c = a
      · subst hc
        rw [List.dropWhile_cons_of_neg (by simp)] at h
        cases h
        simp
      · have hskip : (c != a) = true := bne_iff_ne.mpr hc
        simp only [List.dropWhile_cons, List.takeWhile_cons, hskip, if_true] at h ⊢
        obtain ⟨hl, hmem⟩ := ih h
        rw [List.cons_append, ← hl]
        exact ⟨rfl, List.not_mem_cons_of_ne_of_not_mem (Ne.symm hc) hmem⟩

/-- It is split there, where the value is known to be first. -/
theorem takeWhile_dropWhile_of_notMem {α : Type} [BEq α] [LawfulBEq α] {a : α} {l : List α}
    (h : a ∉ l) (behind : List α) :
    (l ++ a :: behind).takeWhile (· != a) = l ∧
      (l ++ a :: behind).dropWhile (· != a) = a :: behind := by
  have hskip : ∀ b ∈ l, (b != a) = true := by
    intro b hb
    rw [bne_iff_ne]
    intro heq
    exact h (heq ▸ hb)
  constructor
  · rw [List.takeWhile_append_of_pos hskip, List.takeWhile_cons_of_neg (by simp), List.append_nil]
  · rw [List.dropWhile_append_of_pos hskip, List.dropWhile_cons_of_neg (by simp)]

namespace Block

variable {before head body rest : Text}

/-- The first block at or after a place opens behind the text that has no brace to open one. -/
theorem firstFrom_eq_closeBlock {inside : Text} (hhead : '{' ∉ head) :
    firstFrom (before ++ (head ++ '{' :: inside)) (Text.byteSize before) =
      match closeBlock inside with
      | .ok (body, _) =>
        .ok (ofBody (Text.byteSize before) (Text.byteSize before + Text.byteSize head) body)
      | .error s =>
        .error ((unclosedBlock s inside).shift (Text.byteSize before + Text.byteSize head)) := by
  obtain ⟨htake, hdrop⟩ := takeWhile_dropWhile_of_notMem hhead inside
  cases hclose : closeBlock inside with
  | ok result => simp only [firstFrom, Text.splitAt?_byteSize_append, htake, hdrop, hclose]
  | error s => simp only [firstFrom, Text.splitAt?_byteSize_append, htake, hdrop, hclose]

/-- A block with a given body is found exactly if the body is balanced. -/
theorem firstFrom_eq_ok_iff (hhead : '{' ∉ head) :
    firstFrom (before ++ (head ++ '{' :: (body ++ '}' :: rest))) (Text.byteSize before) =
        .ok (ofBody (Text.byteSize before) (Text.byteSize before + Text.byteSize head) body) ↔
      body.IsBalanced := by
  rw [firstFrom_eq_closeBlock hhead]
  constructor
  · intro h
    cases hclose : closeBlock (body ++ '}' :: rest) with
    | error s =>
        rw [hclose] at h
        cases h
    | ok result =>
        obtain ⟨found, behind⟩ := result
        rw [hclose] at h
        obtain ⟨hinside, hbalanced⟩ := closeBlock_eq_ok_iff.mp hclose
        have hsize : Text.byteSize found = Text.byteSize body := by
          have hstop := congrArg Block.stop (Except.ok.inj h)
          simp only [ofBody] at hstop
          omega
        have hfound := Text.takeBytes_byteSize_append found ('}' :: behind)
        rw [hsize, ← hinside, Text.takeBytes_byteSize_append] at hfound
        rwa [hfound]
  · intro hbody
    rw [closeBlock_eq_ok_iff.mpr ⟨rfl, hbody⟩]

theorem firstFrom_append (hhead : '{' ∉ head) (hbody : body.IsBalanced) :
    firstFrom (before ++ (head ++ '{' :: (body ++ '}' :: rest))) (Text.byteSize before) =
      .ok (ofBody (Text.byteSize before) (Text.byteSize before + Text.byteSize head) body) :=
  (firstFrom_eq_ok_iff hhead).mpr hbody

/-- The text up to a block that was found. -/
theorem head?_ofBody :
    (ofBody (Text.byteSize before) (Text.byteSize before + Text.byteSize head) body).head?
      (before ++ (head ++ rest)) = some head :=
  Text.slice?_byteSize_append before head rest

/-- The block that was found ends behind its closing brace. -/
theorem stop_ofBody :
    (ofBody (Text.byteSize before) (Text.byteSize before + Text.byteSize head) body).stop =
      Text.byteSize (before ++ (head ++ '{' :: (body ++ ['}']))) := by
  have hopen : '{'.utf8Size = 1 := by decide
  have hclose : '}'.utf8Size = 1 := by decide
  simp [ofBody, hopen, hclose, Nat.add_assoc]

end Block

end ElementScript
