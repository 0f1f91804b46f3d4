import Mathlib.Data.List.Basic
import Mathlib.Data.List.Induction
import ElementScript.Proofs.Stages

/-!
# Repeated attributes

The search for repeated names goes through them once and keeps the names that it has seen and those
that it has reported. Both say how often a name came (`Listener.SeenIn`), so one more name is
reported at the end if it came once before, and changes nothing if it did not
(`Listener.repeated_concat`). Where a name comes for the second time does not move when names are
added, and so the names are reported once each, in the order of their second coming
(`Listener.repeated_inOrder`). A compiled script warns of these names, and then of load handlers
only (`Listener.repeatedAttributes_exact`).
-/

namespace ElementScript

/-- Further names do not move the places at which a name has come so far. -/
theorem idxOfNth_append_left {name : Text} {names others : List Text} {n : Nat}
    (h : n < names.count name) :
    (names ++ others).idxOfNth name n = names.idxOfNth name n := by
  induction names generalizing n with
  | nil => simp at h
  | cons first names ih =>
      rw [List.cons_append, List.idxOfNth_cons, List.idxOfNth_cons]
      grind

/-- A name that is added comes at the end, for as many times as it came before. -/
theorem idxOfNth_concat (name : Text) (names : List Text) :
    (names ++ [name]).idxOfNth name (names.count name) = names.length := by
  induction names with
  | nil => simp
  | cons first names ih =>
      rw [List.cons_append, List.idxOfNth_cons]
      grind

theorem count_concat (names : List Text) (last name : Text) :
    (names ++ [last]).count name = names.count name + if last = name then 1 else 0 := by
  rw [List.count_append, List.count_singleton]
  simp

namespace Listener

/-- What the search knows of the names that came before: which came at all, and which came more than
once. -/
structure SeenIn (before seen twice : List Text) : Prop where
  mem_seen : ∀ name, name ∈ seen ↔ 1 ≤ before.count name
  mem_twice : ∀ name, name ∈ twice ↔ 2 ≤ before.count name

/-- At the start, no name has come. -/
theorem seenIn_nil : SeenIn [] [] [] := ⟨fun name => by simp, fun name => by simp⟩

section

variable {before seen twice : List Text}

/-- A name is reported when it comes for the second time. -/
theorem SeenIn.reports_iff (h : SeenIn before seen twice) (name : Text) :
    name ∈ seen ∧ name ∉ twice ↔ before.count name = 1 := by
  rw [h.mem_seen, h.mem_twice]
  omega

theorem SeenIn.concat_name (h : SeenIn before seen twice) (name : Text) :
    SeenIn (before ++ [name]) (name :: seen)
      (if name ∈ seen ∧ name ∉ twice then name :: twice else twice) := by
  refine ⟨fun other => ?_, fun other => ?_⟩
  · rw [count_concat, List.mem_cons, h.mem_seen]
    by_cases hother : name = other
    · simp [hother]
    · simp [hother, Ne.symm hother]
  · have hreports := h.reports_iff name
    have htwice := h.mem_twice other
    rw [count_concat]
    by_cases hother : name = other
    · subst hother
      rw [if_pos rfl]
      by_cases hreport : name ∈ seen ∧ name ∉ twice
      · have hcount := hreports.mp hreport
        rw [if_pos hreport, hcount]
        exact iff_of_true List.mem_cons_self (Nat.le_refl 2)
      · rw [if_neg hreport, htwice]
        rw [hreports] at hreport
        omega
    · rw [if_neg hother, Nat.add_zero, ← htwice]
      split
      · simp [Ne.symm hother]
      · rfl

theorem repeatedFrom_nil : repeatedFrom seen twice [] = twice.reverse := rfl

theorem repeatedFrom_cons (name : Text) (names : List Text) :
    repeatedFrom seen twice (name :: names) = repeatedFrom (name :: seen)
      (if name ∈ seen ∧ name ∉ twice then name :: twice else twice) names := rfl

/-- One more name is reported at the end if it came once before. -/
theorem SeenIn.repeatedFrom_concat (h : SeenIn before seen twice) (names : List Text)
    (name : Text) :
    repeatedFrom seen twice (names ++ [name]) =
      if (before ++ names).count name = 1 then repeatedFrom seen twice names ++ [name]
      else repeatedFrom seen twice names := by
  induction names generalizing before seen twice with
  | nil =>
      have hreports := h.reports_iff name
      rw [List.nil_append, List.append_nil, repeatedFrom_cons, repeatedFrom_nil, repeatedFrom_nil]
      by_cases hreport : name ∈ seen ∧ name ∉ twice
      · rw [if_pos hreport, if_pos (hreports.mp hreport), List.reverse_cons]
      · rw [if_neg hreport, if_neg (mt hreports.mpr hreport)]
  | cons first names ih =>
      rw [List.cons_append, repeatedFrom_cons, repeatedFrom_cons, ih (h.concat_name first),
        List.append_assoc, List.singleton_append]

end

theorem repeated_concat (names : List Text) (name : Text) :
    repeated (names ++ [name]) =
      if names.count name = 1 then repeated names ++ [name] else repeated names :=
  seenIn_nil.repeatedFrom_concat names name

/-- The names that are reported are those that come more than once. -/
theorem mem_repeated (names : List Text) (name : Text) :
    name ∈ repeated names ↔ 2 ≤ names.count name := by
  induction names using List.reverseRecOn with
  | nil => simp [repeated, repeatedFrom_nil]
  | append_singleton names last ih =>
      rw [repeated_concat, count_concat]
      by_cases hlast : last = name
      · subst hlast
        rw [if_pos rfl]
        by_cases honce : names.count last = 1
        · rw [if_pos honce, honce]
          exact iff_of_true (List.mem_append_right _ List.mem_cons_self) (Nat.le_refl 2)
        · rw [if_neg honce, ih]
          omega
      · rw [if_neg hlast, Nat.add_zero, ← ih]
        split
        · simp [Ne.symm hlast]
        · rfl

/-- Names are reported in the order in which they come for the second time. -/
theorem repeated_inOrder (names : List Text) :
    (repeated names).Pairwise fun a b => names.idxOfNth a 1 < names.idxOfNth b 1 := by
  induction names using List.reverseRecOn with
  | nil => simp [repeated, repeatedFrom_nil]
  | append_singleton names last ih =>
      have hplace {name : Text} (hname : name ∈ repeated names) :
          (names ++ [last]).idxOfNth name 1 = names.idxOfNth name 1 :=
        idxOfNth_append_left ((mem_repeated names name).mp hname)
      have hold : (repeated names).Pairwise fun a b =>
          (names ++ [last]).idxOfNth a 1 < (names ++ [last]).idxOfNth b 1 :=
        ih.imp_of_mem fun ha hb hlt => by rwa [hplace ha, hplace hb]
      rw [repeated_concat]
      split
      · rename_i hlast
        refine List.pairwise_append.mpr ⟨hold, List.pairwise_singleton _ _, fun a ha b hb => ?_⟩
        -- The new name comes for the second time behind all names before.
        obtain rfl := List.mem_singleton.mp hb
        have hend := idxOfNth_concat b names
        rw [hlast] at hend
        rw [hend, hplace ha]
        exact List.idxOfNth_lt_length_of_lt_count ((mem_repeated names a).mp ha)
      · exact hold

/-- The attributes that are reported are those that more than one listener observes, each one once,
in the order in which they come for the second time: one more listener adds its attribute at the end
if it is the second that observes it, and changes nothing otherwise. A script that is compiled comes
with a warning of each attribute reported, in this order, and behind them with warnings of later
load handlers only. -/
theorem repeatedAttributes_exact :
    (∀ listeners : List Listener,
      (repeatedAttributes listeners).Nodup ∧
      (∀ name, name ∈ repeatedAttributes listeners ↔
        2 ≤ (observedAttributes listeners).count name) ∧
      (repeatedAttributes listeners).Pairwise fun a b =>
        (observedAttributes listeners).idxOfNth a 1 <
          (observedAttributes listeners).idxOfNth b 1) ∧
    (∀ (listeners : List Listener) (listener : Listener),
      repeatedAttributes (listeners ++ [listener]) =
        if (observedAttributes listeners).count listener.observed = 1
        then repeatedAttributes listeners ++ [listener.observed]
        else repeatedAttributes listeners) ∧
    ∀ (compiler : Compiler) (script : Text) (result : CompiledScript),
      compiler.compile script = .ok result →
        ∃ later, result.warnings =
          (repeated result.observedAttributes).map .repeatedAttribute ++
            List.replicate later .laterLoadHandler := by
  refine ⟨fun listeners => ?_, fun listeners listener => ?_, fun compiler script result h => ?_⟩
  · have horder := repeated_inOrder (observedAttributes listeners)
    refine ⟨horder.imp fun hlt => ?_, mem_repeated _, horder⟩
    rintro rfl
    exact Nat.lt_irrefl _ hlt
  · rw [repeatedAttributes, observedAttributes, List.map_append]
    exact repeated_concat (observedAttributes listeners) listener.observed
  · obtain ⟨x, y, -, -, rfl⟩ := Compiler.compile_eq_ok h
    exact ⟨y.ignored, rfl⟩

/-- A script with two listeners of one attribute and two load handlers is compiled with a warning of
each kind. -/
theorem twoHandlers_warnings :
    ∃ script result later, Compiler.standard.compile script = .ok result ∧
      result.observedAttributes = [['a'], ['a']] ∧
      result.warnings = [.repeatedAttribute ['a'], .laterLoadHandler] ∧
      result.warnings = (repeated result.observedAttributes).map .repeatedAttribute ++
        List.replicate later .laterLoadHandler := by
  have hfound : (Compiler.standard.compile
      ("addChangeListener(\"a\", v => \x7b\x7d) addChangeListener(\"a\", v => \x7b\x7d) ".toList ++
        "::initialized(() => \x7b\x7d) ::initialized(() => \x7b\x7d)".toList)).map
      (fun r => (r.observedAttributes, r.warnings)) =
        .ok ([['a'], ['a']], [.repeatedAttribute ['a'], .laterLoadHandler]) := by
    decide +kernel
  obtain ⟨result, hresult, hparts⟩ := map_eq_ok_iff.mp hfound
  obtain ⟨hobserved, hwarnings⟩ := Prod.mk.inj hparts
  obtain ⟨later, hlater⟩ := repeatedAttributes_exact.2.2 _ _ _ hresult
  exact ⟨_, result, later, hresult, hobserved, hwarnings, hlater⟩

end Listener

end ElementScript
