import ElementScript.Proofs.Text.Place
import ElementScript.Scan.Sweep

/-!
# Sweeps, step by step

A sweep carries its offset and the steps so far along; what it does to the rest of a text depends on
neither (`sweepFrom_eq_resume`). Without them it is a relation on texts with one rule for each kind
of step (`Swept`), and a sweep for stretches that stand where they are looked for obeys the rules
(`swept_sweepOn`). What holds of all sweeps is then proved by induction on the rules: the steps
cover the text, a fault stands at a proper place of it, and what was found was found in it.
-/

namespace ElementScript

variable {α : Type}

namespace Step

/-- Steps that keep a text are edits that keep it. -/
theorem edits_map_keep (q : Text) (steps : List (Step α)) :
    edits (q.map .keep ++ steps) = Edit.keepAll q ++ edits steps := by
  simp [edits, edit, Edit.keepAll, Function.comp_def]

/-- Nothing is read in steps that keep a text. -/
theorem values_map_keep (q : Text) (steps : List (Step α)) :
    values (q.map .keep ++ steps) = values steps := by
  simp [values, value?, List.filterMap_append, List.filterMap_map, Function.comp_def]

end Step

/-- The answer of a whole sweep, from the steps over its first `size` bytes and the answer for the
rest. -/
def resume (steps : List (Step α)) (size : Nat) :
    Except Fault (List (Step α)) → Except Fault (List (Step α))
  | .ok more => .ok (steps ++ more)
  | .error f => .error (f.shift size)

@[simp] theorem resume_ok (steps more : List (Step α)) (size : Nat) :
    resume steps size (.ok more) = .ok (steps ++ more) := rfl

@[simp] theorem resume_error (steps : List (Step α)) (size : Nat) (f : Fault) :
    resume steps size (.error f) = .error (f.shift size) := rfl

@[simp] theorem resume_resume (steps more : List (Step α)) (m n : Nat)
    (r : Except Fault (List (Step α))) :
    resume steps m (resume more n r) = resume (steps ++ more) (m + n) r := by
  cases r with
  | ok rest => simp
  | error f => simp

@[simp] theorem resume_nil_zero (r : Except Fault (List (Step α))) : resume [] 0 r = r := by
  cases r with
  | ok rest => rfl
  | error f => simp

theorem resume_eq_ok_iff {steps all : List (Step α)} {size : Nat}
    {r : Except Fault (List (Step α))} :
    resume steps size r = .ok all ↔ ∃ more, r = .ok more ∧ all = steps ++ more := by
  cases r with
  | ok more => simp [eq_comm]
  | error f => simp

theorem resume_eq_error_iff {steps : List (Step α)} {size : Nat} {f : Fault}
    {r : Except Fault (List (Step α))} :
    resume steps size r = .error f ↔ ∃ g, r = .error g ∧ f = g.shift size := by
  cases r with
  | ok more => simp
  | error g => simp [eq_comm]

/-! ### Sweeping the rest of a text -/

section Sweeping

variable (find : Text → Except Fault (Option (Found α))) (joins : Bool)

/-- Sweep a text whose start is a boundary or not. -/
def sweepOn (boundary : Bool) (t : Text) : Except Fault (List (Step α)) :=
  sweepFrom find joins 0 0 boundary [] t

theorem sweep_eq_sweepOn (t : Text) : sweep find joins t = sweepOn find joins true t := rfl

/-- Offset and steps so far only have to be added. -/
theorem sweepFrom_eq_resume (offset skip : Nat) (boundary : Bool) (steps : List (Step α))
    (t : Text) :
    sweepFrom find joins offset skip boundary steps t =
      resume steps.reverse offset (sweepFrom find joins 0 skip boundary [] t) := by
  induction t generalizing offset skip boundary steps with
  | nil => simp [sweepFrom]
  | cons c t ih =>
      cases skip with
      | succ skip =>
          rw [sweepFrom, sweepFrom, ih, ih (0 + c.utf8Size), resume_resume]
          simp
      | zero =>
          rw [sweepFrom, sweepFrom]
          split
          · simp
          · rw [ih, ih (0 + c.utf8Size), resume_resume]
            simp
          · rw [ih, ih (0 + c.utf8Size), resume_resume]
            simp

/-- Whether the place behind the text `u` is a boundary, when `u` was replaced. -/
def stopBoundary (boundary : Bool) (u : Text) : Bool :=
  u.getLast?.elim boundary fun c => joins || Text.isBlank c

theorem stopBoundary_cons (boundary : Bool) (c : Char) (u : Text) :
    stopBoundary joins boundary (c :: u) = stopBoundary joins (joins || Text.isBlank c) u := by
  cases u with
  | nil => rfl
  | cons d u =>
      rw [stopBoundary, stopBoundary, List.getLast?_cons_cons,
        List.getLast?_eq_some_getLast (by simp)]
      rfl

/-- The boundary behind a text is seen from its last character. -/
theorem stopBoundary_concat (boundary : Bool) (u : Text) (c : Char) :
    stopBoundary joins boundary (u ++ [c]) = (joins || Text.isBlank c) := by
  rw [stopBoundary, List.getLast?_concat]
  rfl

theorem sweepFrom_skip (boundary : Bool) (u t : Text) :
    sweepFrom find joins 0 u.length boundary [] (u ++ t) =
      resume [] (Text.byteSize u) (sweepOn find joins (stopBoundary joins boundary u) t) := by
  induction u generalizing boundary with
  | nil =>
      rw [Text.byteSize_nil, resume_nil_zero]
      rfl
  | cons c u ih =>
      rw [List.cons_append, List.length_cons, sweepFrom, sweepFrom_eq_resume, ih,
        resume_resume, stopBoundary_cons]
      simp

theorem sweepOn_keep {boundary : Bool} {c : Char} {t : Text}
    (h : boundary → find (c :: t) = .ok none) :
    sweepOn find joins boundary (c :: t) =
      resume [.keep c] c.utf8Size (sweepOn find joins (Text.isBlank c) t) := by
  have hnone : (if boundary then find (c :: t) else .ok none) = .ok none := by
    split
    · rename_i hb
      exact h hb
    · rfl
  rw [sweepOn, sweepFrom, hnone]
  dsimp only
  rw [sweepFrom_eq_resume, Nat.zero_add]
  rfl

/-- Where nothing is found all through a text that ends in a blank, the sweep keeps that text, and
goes on behind it as at the start of a text. -/
theorem sweepOn_keepAll {c : Char} (hc : Text.isBlank c) {boundary : Bool} {p t : Text}
    (h : ∀ r, r <:+ p → find (r ++ c :: t) = .ok none) :
    sweepOn find joins boundary (p ++ c :: t) =
      resume ((p ++ [c]).map .keep) (Text.byteSize (p ++ [c])) (sweepOn find joins true t) := by
  induction p generalizing boundary with
  | nil =>
      rw [List.nil_append, sweepOn_keep find joins fun _ => h [] (List.suffix_refl []), hc]
      simp
  | cons d p ih =>
      have htail : ∀ r, r <:+ p → find (r ++ c :: t) = .ok none :=
        fun r hr => h r (hr.trans (List.suffix_cons d p))
      have hhere : find (d :: (p ++ c :: t)) = .ok none := h (d :: p) (List.suffix_refl _)
      rw [List.cons_append, sweepOn_keep find joins fun _ => hhere, ih htail, resume_resume]
      simp

theorem sweepOn_found {x : Found α} {rest : Text} (hold : x.old ≠ [])
    (h : find (x.old ++ rest) = .ok (some x)) :
    sweepOn find joins true (x.old ++ rest) =
      resume [.found x] (Text.byteSize x.old)
        (sweepOn find joins (stopBoundary joins true x.old) rest) := by
  obtain ⟨c, u, hu⟩ := List.exists_cons_of_ne_nil hold
  rw [hu, List.cons_append] at h ⊢
  have hlength : x.old.length - 1 = u.length := by rw [hu]; rfl
  rw [sweepOn, sweepFrom, if_pos rfl, h]
  dsimp only
  rw [hlength, sweepFrom_eq_resume, sweepFrom_skip, resume_resume, stopBoundary_cons]
  simp

theorem sweepOn_fault {c : Char} {t : Text} {f : Fault} (h : find (c :: t) = .error f) :
    sweepOn find joins true (c :: t) = .error f := by
  rw [sweepOn, sweepFrom, if_pos rfl, h]
  dsimp only
  rw [Fault.shift_zero]

end Sweeping

/-! ### The rules of a sweep -/

/-- What is found stands at the start of the text in which it is looked for, and is not empty. -/
def FindsAtStart (find : Text → Except Fault (Option (Found α))) : Prop :=
  ∀ t x, find t = .ok (some x) → x.old ≠ [] ∧ x.old <+: t

/-- The answer of a sweep over a text whose start is a boundary or not, rule by rule. -/
inductive Swept (find : Text → Except Fault (Option (Found α))) (joins : Bool) :
    Bool → Text → Except Fault (List (Step α)) → Prop where
  | nil {boundary : Bool} : Swept find joins boundary [] (.ok [])
  /-- Nothing is found here, or this is no boundary. -/
  | keep {boundary : Bool} {c : Char} {t : Text} {r : Except Fault (List (Step α))}
      (hnone : boundary → find (c :: t) = .ok none) (rest : Swept find joins (Text.isBlank c) t r) :
      Swept find joins boundary (c :: t) (resume [.keep c] c.utf8Size r)
  /-- A stretch is found, and the sweep goes on behind it. -/
  | found {x : Found α} {t : Text} {r : Except Fault (List (Step α))} (hold : x.old ≠ [])
      (hfound : find (x.old ++ t) = .ok (some x))
      (rest : Swept find joins (stopBoundary joins true x.old) t r) :
      Swept find joins true (x.old ++ t) (resume [.found x] (Text.byteSize x.old) r)
  | fault {c : Char} {t : Text} {f : Fault} (hfault : find (c :: t) = .error f) :
      Swept find joins true (c :: t) (.error f)

/-- A sweep obeys the rules. -/
theorem swept_sweepOn {find : Text → Except Fault (Option (Found α))} (hfind : FindsAtStart find)
    (joins boundary : Bool) (t : Text) :
    Swept find joins boundary t (sweepOn find joins boundary t) := by
  -- By induction on the length: behind a stretch, the sweep is over what is left of the text.
  induction hn : t.length using Nat.strongRecOn generalizing boundary t with
  | ind n ih =>
      subst hn
      cases t with
      | nil => exact .nil
      | cons c t =>
          by_cases hnone : boundary → find (c :: t) = .ok none
          · rw [sweepOn_keep find joins hnone]
            exact .keep hnone (ih t.length (by simp) _ t rfl)
          · rw [Classical.not_imp] at hnone
            obtain ⟨rfl, hnone⟩ := hnone
            cases hr : find (c :: t) with
            | error f =>
                rw [sweepOn_fault find joins hr]
                exact .fault hr
            | ok found? =>
                cases found? with
                | none => exact absurd hr hnone
                | some x =>
                    obtain ⟨hold, rest, hrest⟩ := hfind _ _ hr
                    rw [← hrest] at hr ⊢
                    have hlt : rest.length < (c :: t).length := by
                      have := List.length_pos_iff.mpr hold
                      rw [← hrest, List.length_append]
                      omega
                    rw [sweepOn_found find joins hold hr]
                    exact .found hold hr (ih rest.length hlt _ rest rfl)

/-! ### What holds of all sweeps -/

namespace Swept

variable {find : Text → Except Fault (Option (Found α))} {joins boundary : Bool} {t : Text}
  {r : Except Fault (List (Step α))}

/-- The steps go over the whole text. -/
theorem source_edits (h : Swept find joins boundary t r) {steps : List (Step α)}
    (hr : r = .ok steps) : Edit.source (Step.edits steps) = t := by
  induction h generalizing steps with
  | nil =>
      cases hr
      rfl
  | keep hnone rest ih =>
      obtain ⟨more, hmore, rfl⟩ := resume_eq_ok_iff.mp hr
      simp [Step.edits, Step.edit, Edit.before, ← ih hmore]
  | found hold hfound rest ih =>
      obtain ⟨more, hmore, rfl⟩ := resume_eq_ok_iff.mp hr
      simp [Step.edits, Step.edit, Edit.before, ← ih hmore]
  | fault hfault => cases hr

/-- If faults of the search stand at proper places, so do those of the sweep. -/
theorem fault_isPlace (h : Swept find joins boundary t r)
    (hfind : ∀ u g, find u = .error g → u.IsPlace g.offset) {f : Fault} (hr : r = .error f) :
    t.IsPlace f.offset := by
  induction h generalizing f with
  | nil => cases hr
  | @keep _ c t _ hnone rest ih =>
      obtain ⟨g, hg, rfl⟩ := resume_eq_error_iff.mp hr
      simpa [Fault.shift] using (ih hg).append_left [c]
  | found hold hfound rest ih =>
      obtain ⟨g, hg, rfl⟩ := resume_eq_error_iff.mp hr
      exact (ih hg).append_left _
  | fault hfault =>
      cases hr
      exact hfind _ _ hfault

/-- Where a blank ends the text, and the search does not look behind it, the sweep over more text is
the sweep over the text, and then one from the start of what stands behind the blank. -/
theorem sweepOn_append (h : Swept find joins boundary t r) {steps : List (Step α)}
    (hr : r = .ok steps) {c : Char} (hc : Text.isBlank c) {t' : Text} (hnil : find [] = .ok none)
    (hfind : ∀ u x?, find u = .ok x? → find (u ++ c :: t') = .ok x?) :
    sweepOn find joins boundary (t ++ c :: t') =
      resume (steps ++ [.keep c]) (Text.byteSize (t ++ [c])) (sweepOn find joins true t') := by
  induction h generalizing steps with
  | nil =>
      cases hr
      rw [List.nil_append, sweepOn_keep find joins fun _ => hfind [] none hnil, hc]
      simp
  | @keep boundary d t _ hnone rest ih =>
      obtain ⟨more, hmore, rfl⟩ := resume_eq_ok_iff.mp hr
      have hnone' : boundary → find (d :: (t ++ c :: t')) = .ok none :=
        fun hb => hfind _ none (hnone hb)
      rw [List.cons_append, sweepOn_keep find joins hnone', ih hmore, resume_resume]
      simp
  | @found x t _ hold hfound rest ih =>
      obtain ⟨more, hmore, rfl⟩ := resume_eq_ok_iff.mp hr
      have hfound' := hfind _ _ hfound
      rw [List.append_assoc] at hfound' ⊢
      rw [sweepOn_found find joins hold hfound', ih hmore, resume_resume]
      simp
  | fault hfault => cases hr

/-- What a sweep found was found in the text, at the start of what was left of it. -/
theorem exists_find_of_mem (h : Swept find joins boundary t r) {steps : List (Step α)}
    (hr : r = .ok steps) {x : Found α} (hx : .found x ∈ steps) :
    ∃ before rest, t = before ++ (x.old ++ rest) ∧ find (x.old ++ rest) = .ok (some x) := by
  induction h generalizing steps with
  | nil =>
      cases hr
      cases hx
  | @keep _ c t _ hnone rest ih =>
      obtain ⟨more, hmore, rfl⟩ := resume_eq_ok_iff.mp hr
      have hmem : .found x ∈ more := by simpa using hx
      obtain ⟨before, after, rfl, hfound⟩ := ih hmore hmem
      exact ⟨c :: before, after, rfl, hfound⟩
  | @found y t _ hold hfound rest ih =>
      obtain ⟨more, hmore, rfl⟩ := resume_eq_ok_iff.mp hr
      rcases List.mem_cons.mp (by simpa using hx : Step.found x ∈ Step.found y :: more) with
        heq | hmem
      · cases heq
        exact ⟨[], t, rfl, hfound⟩
      · obtain ⟨before, after, rfl, hfound'⟩ := ih hmore hmem
        exact ⟨y.old ++ before, after, by simp, hfound'⟩
  | fault hfault => cases hr

end Swept

end ElementScript
