import ElementScript.CommandLine.Arguments

/-!
# Values that are paths

A command whose values are paths takes no empty one, so a directory that is to be checked has a path
that is not empty (`ne_nil_of_ofArgs`).
-/

namespace ElementScript

namespace Arguments

theorem values_of_addValue? {spec : ArgumentSpec} {a a' : Arguments} {value : Text}
    (h : addValue? spec a value = some a') :
    a'.values = a.values ++ [value] ∧ (spec.arePaths = true → value ≠ []) := by
  rw [addValue?] at h
  split at h
  · cases h
  · rename_i hadd
    obtain rfl := Option.some.inj h
    refine ⟨rfl, fun hpaths => ?_⟩
    rintro rfl
    simp [hpaths] at hadd

theorem values_of_addOption? {a a' : Arguments} {name : Text} {value : Path}
    (h : addOption? a name value = some a') : a'.values = a.values := by
  rw [addOption?] at h
  split at h
  · cases h
  · rw [← Option.some.inj h]

/-- Taking arguments apart adds no empty path to the values. -/
theorem nil_notMem_values {spec : ArgumentSpec} (hpaths : spec.arePaths = true)
    {a taken : Arguments} {literal : Bool} {args : List Text} (ha : [] ∉ a.values)
    (h : takeFrom spec a literal args = .taken taken) : [] ∉ taken.values := by
  fun_induction takeFrom spec a literal args
  case case1 =>
      cases h
      exact ha
  case case2 hadd ih =>
      obtain ⟨hvalues, hne⟩ := values_of_addValue? hadd
      refine ih ?_ h
      rw [hvalues, List.mem_append, List.mem_singleton, not_or]
      exact ⟨ha, (hne hpaths).symm⟩
  -- two dashes and flags are no values, and neither are options with theirs
  case case4 ih | case7 ih => exact ih ha h
  case case9 hadd ih | case13 hadd ih => exact ih (values_of_addOption? hadd ▸ ha) h
  all_goals cases h

end Arguments

namespace Invocation

variable {args : List Text} {dir : Path}

theorem taken_of_ofArguments {page : HelpPage} {spec : ArgumentSpec}
    {command? : Arguments → Option Command} {command : Command}
    (h : ofArguments page spec command? args = run command) :
    ∃ a, Arguments.take spec args = .taken a ∧ command? a = some command := by
  rw [ofArguments] at h
  split at h
  · cases h
  · cases h
  · rename_i a htake
    refine ⟨a, htake, ?_⟩
    cases hcommand : command? a with
    | none => simp [hcommand] at h
    | some c => simpa [hcommand] using h

theorem helpOn_ne_run {command : Command} : helpOn args ≠ run command := by
  intro h
  rw [helpOn.eq_def] at h
  split at h
  · cases h
  · rename_i name
    cases hpage : helpPages.lookup name with
    | none => simp [hpage] at h
    | some page => simp [hpage] at h
  · cases h

theorem translate_ne_check : translate args ≠ run (.check dir) := by
  intro h
  obtain ⟨a, -, hcommand⟩ := taken_of_ofArguments h
  dsimp only at hcommand
  split at hcommand <;> cases hcommand

theorem bundle_ne_check : bundle args ≠ run (.check dir) := by
  intro h
  obtain ⟨a, -, hcommand⟩ := taken_of_ofArguments h
  dsimp only at hcommand
  split at hcommand <;> cases hcommand

/-- Only the command of that name checks a directory. -/
theorem check_of_ofArgs (h : ofArgs args = run (.check dir)) :
    ∃ rest, args = "check".toList :: rest ∧ check rest = run (.check dir) := by
  cases args with
  | nil => cases h
  | cons arg rest =>
      rw [ofArgs] at h
      split at h
      · exact absurd h translate_ne_check
      · split at h
        · rename_i harg
          exact ⟨rest, by rw [harg], h⟩
        · split at h
          · exact absurd h bundle_ne_check
          · split at h
            · exact absurd h helpOn_ne_run
            · split at h <;> cases h

/-- A directory that is to be checked has a path that is not empty. -/
theorem ne_nil_of_ofArgs (h : ofArgs args = run (.check dir)) : dir ≠ [] := by
  obtain ⟨rest, -, hcheck⟩ := check_of_ofArgs h
  obtain ⟨a, htake, hhead⟩ := taken_of_ofArguments hcheck
  obtain ⟨value, hvalue, hdir⟩ := Option.map_eq_some_iff.mp hhead
  rw [← Command.check.inj hdir]
  rintro rfl
  exact Arguments.nil_notMem_values rfl List.not_mem_nil htake (List.mem_of_mem_head? hvalue)

end Invocation

end ElementScript
