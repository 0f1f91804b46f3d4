import ElementScript.Component.Store

/-!
# What a store loads

A load is answered by the component that the store has loaded under the name, or else by what the
files hold (`fetch_fst`), and it changes the store at most under that name (`find?_fetch`). So two
stores with the same settings and the same components behave alike (`Alike.fetch`).
-/

namespace ElementScript

namespace Component.Store

/-- A store that is made from settings has loaded nothing. -/
theorem loaded_of_ofConfig {config : Config} {store : Component.Store}
    (h : ofConfig config = .ok store) : store.loaded = [] := by
  unfold ofConfig at h
  cases hcompiler : Compiler.ofOptions config.options with
  | error flaw =>
      rw [hcompiler] at h
      cases h
  | ok compiler =>
      rw [hcompiler] at h
      cases h
      rfl

/-- A component that has been loaded is handed out as it is. No file is looked at, whatever the
files are. -/
theorem fetch_of_find? {m : Type → Type} [Monad m] (files : FileAccess m) {store : Component.Store}
    {name : Text} {component : Component} (h : store.find? name = some component) :
    store.fetch files name = pure (.ok (some component), store) := by
  simp only [fetch, h]

/-! ### One load -/

section Load

variable (store : Component.Store) (files : FileAccess Id) (name : Text)

/-- The component that a load of the name gives, if it gives one. -/
def load? : Option Component :=
  match (store.fetch files name).1 with
  | .ok component? => component?
  | .error _ => none

/-- The store with a component kept under a name. -/
def keep (component : Component) : Component.Store :=
  { store with loaded := (name, component) :: store.loaded }

variable {store files name}

theorem find?_keep (component : Component) (k : Text) :
    (store.keep name component).find? k =
      if k = name then some component else store.find? k := by
  rw [keep, find?, List.lookup_cons]
  by_cases hk : k = name
  · rw [if_pos hk, beq_iff_eq.mpr hk]
  · rw [if_neg hk, beq_eq_false_iff_ne.mpr hk]
    rfl

/-- A component that has not been loaded is read from the files, and kept if they give one. -/
theorem fetch_of_find?_eq_none (h : store.find? name = none) :
    store.fetch files name =
      match (show Except LoadProblem (Option Component) from store.assemble files name) with
      | .ok (some component) => (.ok (some component), store.keep name component)
      | missing => (missing, store) := by
  simp only [fetch, h]
  rfl

variable (store files name) in
/-- The three ways of a load: the component is there, or the files give it and it is kept, or they
give none and nothing is kept. -/
theorem fetch_cases :
    (∃ component, store.find? name = some component ∧
      store.fetch files name = (.ok (some component), store)) ∨
    (store.find? name = none ∧ ∃ component, store.assemble files name = .ok (some component) ∧
      store.fetch files name = (.ok (some component), store.keep name component)) ∨
    (store.find? name = none ∧ (∀ component, store.assemble files name ≠ .ok (some component)) ∧
      store.fetch files name = (store.assemble files name, store)) := by
  cases hfind : store.find? name with
  | some component => exact Or.inl ⟨component, rfl, fetch_of_find? files hfind⟩
  | none =>
      have hfetch : store.fetch files name = _ := fetch_of_find?_eq_none hfind
      match hread : store.assemble files name with
      | .ok (some component) =>
          rw [hread] at hfetch
          exact Or.inr (Or.inl ⟨rfl, component, rfl, hfetch⟩)
      | .ok none =>
          rw [hread] at hfetch
          exact Or.inr (Or.inr ⟨rfl, fun component => nofun, hfetch⟩)
      | .error problem =>
          rw [hread] at hfetch
          exact Or.inr (Or.inr ⟨rfl, fun component => nofun, hfetch⟩)

/-- What a load answers. -/
theorem fetch_fst : (store.fetch files name).1 =
    match store.find? name with
    | some component => .ok (some component)
    | none => store.assemble files name := by
  rcases fetch_cases store files name with
    ⟨component, hfind, hfetch⟩ | ⟨hfind, component, hread, hfetch⟩ | ⟨hfind, -, hfetch⟩
  · rw [hfetch, hfind]
  · rw [hfetch, hfind, hread]
  · rw [hfetch, hfind]

theorem load?_eq_some_iff {component : Component} :
    store.load? files name = some component ↔
      (store.fetch files name).1 = .ok (some component) := by
  unfold load?
  split
  · rename_i component? h
    rw [h]
    simp
  · rename_i problem h
    rw [h]
    simp

theorem load?_of_find? {component : Component} (h : store.find? name = some component) :
    store.load? files name = some component := by
  rw [load?_eq_some_iff, fetch_fst, h]

/-- Under other names than its own, a load changes nothing. -/
theorem find?_fetch (k : Text) : (store.fetch files name).2.find? k =
    if k = name then store.load? files name else store.find? k := by
  rcases fetch_cases store files name with
    ⟨component, hfind, hfetch⟩ | ⟨hfind, component, hread, hfetch⟩ | ⟨hfind, hnone, hfetch⟩
  · rw [load?_of_find? hfind, hfetch]
    by_cases hk : k = name
    · rw [if_pos hk, hk, hfind]
    · rw [if_neg hk]
  · have hload : store.load? files name = some component :=
      load?_eq_some_iff.mpr (by rw [hfetch])
    rw [hload, hfetch, find?_keep]
  · have hload : store.load? files name = none := by
      refine Option.eq_none_iff_forall_ne_some.mpr fun component hsome => ?_
      rw [load?_eq_some_iff, hfetch] at hsome
      exact hnone component hsome
    rw [hload, hfetch]
    by_cases hk : k = name
    · rw [if_pos hk, hk, hfind]
    · rw [if_neg hk]

@[simp] theorem fetch_config : (store.fetch files name).2.config = store.config := by
  rcases fetch_cases store files name with
    ⟨component, -, hfetch⟩ | ⟨-, component, -, hfetch⟩ | ⟨-, -, hfetch⟩
  · rw [hfetch]
  · rw [hfetch]
    rfl
  · rw [hfetch]

@[simp] theorem fetch_compiler : (store.fetch files name).2.compiler = store.compiler := by
  rcases fetch_cases store files name with
    ⟨component, -, hfetch⟩ | ⟨-, component, -, hfetch⟩ | ⟨-, -, hfetch⟩
  · rw [hfetch]
  · rw [hfetch]
    rfl
  · rw [hfetch]

/-- A load that gives no component leaves the store as it was. -/
theorem fetch_snd_of_load?_eq_none (h : store.load? files name = none) :
    (store.fetch files name).2 = store := by
  have hne (component : Component) : (store.fetch files name).1 ≠ .ok (some component) := by
    intro hsome
    rw [← load?_eq_some_iff, h] at hsome
    cases hsome
  rcases fetch_cases store files name with
    ⟨component, -, hfetch⟩ | ⟨-, component, -, hfetch⟩ | ⟨-, -, hfetch⟩
  · rw [hfetch]
  · exact absurd (by rw [hfetch]) (hne component)
  · rw [hfetch]

end Load

/-! ### Stores that behave alike -/

/-- Two stores with the same settings that have loaded the same components. -/
structure Alike (s t : Component.Store) : Prop where
  config : s.config = t.config
  compiler : s.compiler = t.compiler
  find? : ∀ k, s.find? k = t.find? k

section Alike

variable {s t : Component.Store} (files : FileAccess Id) (name : Text)

/-- What the files hold does not depend on what has been loaded. -/
theorem assemble_congr (hconfig : s.config = t.config) (hcompiler : s.compiler = t.compiler) :
    s.assemble files name = t.assemble files name := by
  cases s
  cases t
  cases hconfig
  cases hcompiler
  rfl

/-- The answer of a load depends on the settings and on what has been loaded under the name. -/
theorem fetch_fst_congr (hconfig : s.config = t.config) (hcompiler : s.compiler = t.compiler)
    (hfind : s.find? name = t.find? name) : (s.fetch files name).1 = (t.fetch files name).1 := by
  rw [fetch_fst, fetch_fst, hfind, assemble_congr files name hconfig hcompiler]

theorem load?_congr (hconfig : s.config = t.config) (hcompiler : s.compiler = t.compiler)
    (hfind : s.find? name = t.find? name) : s.load? files name = t.load? files name := by
  rw [load?, load?, fetch_fst_congr files name hconfig hcompiler hfind]

theorem Alike.refl (s : Component.Store) : Alike s s := ⟨rfl, rfl, fun _ => rfl⟩

/-- Stores that are alike answer a load in the same way, and are alike after it. -/
theorem Alike.fetch_alike (h : Alike s t) : (s.fetch files name).1 = (t.fetch files name).1 ∧
    Alike (s.fetch files name).2 (t.fetch files name).2 := by
  have hload : s.load? files name = t.load? files name :=
    load?_congr files name h.config h.compiler (h.find? name)
  refine ⟨fetch_fst_congr files name h.config h.compiler (h.find? name), ⟨?_, ?_, ?_⟩⟩
  · rw [fetch_config, fetch_config, h.config]
  · rw [fetch_compiler, fetch_compiler, h.compiler]
  · intro k
    rw [find?_fetch, find?_fetch, hload, h.find? k]

end Alike

end Component.Store

end ElementScript
