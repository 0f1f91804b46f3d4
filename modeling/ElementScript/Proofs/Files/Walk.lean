import ElementScript.Proofs.Component.Confinement

/-!
# Walking a directory

The files below a directory are told apart by the names of the entries that lead to them. A walk
lists each file once (`Tree.mem_walk`), in the order of these names, the outermost first
(`Tree.walk_inOrder`), and leaves out those in directories whose path is refused. The path of a file
that is listed leads to it, unless that path is refused itself (`Tree.read_below`): in a tree as a
file system holds it, no name of an entry is a path of its own or leads upwards
(`Tree.WellFormed`).
-/

namespace ElementScript

/-! ### Paths below a directory -/

/-- A name that an entry of a directory can have. -/
structure IsEntryName (name : Text) : Prop where
  ne_nil : name ≠ []
  slash_notMem : '/' ∉ name
  nul_notMem : '\x00' ∉ name
  ne_dot : name ≠ ['.']
  ne_dots : name ≠ ['.', '.']
  size_le : Text.byteSize name ≤ Tree.maxNameBytes

instance (name : Text) : Decidable (IsEntryName name) :=
  decidable_of_iff (name ≠ [] ∧ '/' ∉ name ∧ '\x00' ∉ name ∧ name ≠ ['.'] ∧ name ≠ ['.', '.'] ∧
      Text.byteSize name ≤ Tree.maxNameBytes)
    ⟨fun ⟨h₁, h₂, h₃, h₄, h₅, h₆⟩ => ⟨h₁, h₂, h₃, h₄, h₅, h₆⟩,
      fun ⟨h₁, h₂, h₃, h₄, h₅, h₆⟩ => ⟨h₁, h₂, h₃, h₄, h₅, h₆⟩⟩

namespace IsEntryName

variable {name : Text} (h : IsEntryName name)

include h

theorem isAbsolute_eq : Path.isAbsolute name = false := by
  rw [Path.isAbsolute, beq_eq_false_iff_ne]
  exact fun hhead => h.slash_notMem (List.mem_of_head? hhead)

/-- Seen from a directory, the path of an entry goes on with its name. -/
theorem join_eq {dir : Path} (hdir : dir ≠ []) :
    ∃ slash, Path.join dir name = dir ++ slash ++ name ∧ (slash = [] ∨ slash = ['/']) ∧
      (slash = [] ↔ dir.getLast? = some '/') := by
  rw [Path.join_of_relative dir h.isAbsolute_eq]
  by_cases hlast : dir.getLast? = some '/'
  · exact ⟨[], by simp [hlast], Or.inl rfl, by simp [hlast]⟩
  · exact ⟨['/'], by simp [hdir, hlast], Or.inr rfl, by simp [hlast]⟩

theorem join_ne_nil {dir : Path} (hdir : dir ≠ []) : Path.join dir name ≠ [] := by
  obtain ⟨slash, heq, -⟩ := h.join_eq hdir
  simp [heq, hdir]

theorem byteSize_add_le_join {dir : Path} (hdir : dir ≠ []) :
    Text.byteSize dir + Text.byteSize name ≤ Text.byteSize (Path.join dir name) := by
  obtain ⟨slash, heq, -⟩ := h.join_eq hdir
  rw [heq, Text.byteSize_append, Text.byteSize_append]
  omega

theorem isAbsolute_join {dir : Path} (hdir : dir ≠ []) :
    Path.isAbsolute (Path.join dir name) = Path.isAbsolute dir := by
  obtain ⟨slash, heq, -⟩ := h.join_eq hdir
  rw [heq, List.append_assoc, Path.isAbsolute, Path.isAbsolute,
    List.head?_append_of_ne_nil dir hdir]

theorem nul_notMem_join {dir : Path} (hdir : dir ≠ []) (hnul : '\x00' ∉ dir) :
    '\x00' ∉ Path.join dir name := by
  obtain ⟨slash, heq, hslash, -⟩ := h.join_eq hdir
  rw [heq]
  rcases hslash with rfl | rfl <;> simp [hnul, h.nul_notMem]

/-- The name is the last part of the path, and an empty part in front of it is left out. -/
theorem parts_join {dir : Path} (hdir : dir ≠ []) :
    ∃ parts, parts ≠ [] ∧ Path.parts (Path.join dir name) = parts ++ [name] ∧
      (Path.parts dir = parts ∨ Path.parts dir = parts ++ [[]]) := by
  have hname : ∀ c ∈ name, (c == '/') = false := by
    intro c hc
    rw [beq_eq_false_iff_ne]
    rintro rfl
    exact h.slash_notMem hc
  have hpart : Path.parts name = [name] := List.splitOnP_eq_singleton hname
  rw [Path.join_of_relative dir h.isAbsolute_eq]
  by_cases hlast : dir.getLast? = some '/'
  · obtain ⟨outer, rfl⟩ := List.getLast?_eq_some_iff.mp hlast
    refine ⟨Path.parts outer, List.splitOnP_ne_nil _ _, ?_, Or.inr ?_⟩
    · rw [if_pos (by simp), List.append_assoc, List.singleton_append, Path.parts,
        List.splitOnP_append_cons _ _ rfl]
      exact congrArg (Path.parts outer ++ ·) hpart
    · rw [Path.parts, List.splitOnP_append_cons _ _ rfl]
      rfl
  · refine ⟨Path.parts dir, List.splitOnP_ne_nil _ _, ?_, Or.inl rfl⟩
    rw [if_neg (by simp [hdir, hlast]), Path.parts, List.splitOnP_append_cons _ _ rfl]
    exact congrArg (Path.parts dir ++ ·) hpart

theorem fileName?_join {dir : Path} (hdir : dir ≠ []) :
    Path.fileName? (Path.join dir name) = some name := by
  obtain ⟨parts, hne, hparts, -⟩ := h.parts_join hdir
  -- Whatever is dropped in front of the path, its last part stays.
  have hbody : ∃ rest, Path.body (Path.join dir name) = name :: rest := by
    obtain ⟨first, rest, rfl⟩ := List.exists_cons_of_ne_nil hne
    have hkept : (name.isEmpty || name == ['.']) = false := by simp [h.ne_nil, h.ne_dot]
    rw [Path.body, hparts]
    split
    · rw [List.cons_append, List.tail_cons, List.reverse_append, List.reverse_singleton,
        List.singleton_append, Path.dropDots, List.dropWhile_cons_of_neg (by rw [hkept]; simp)]
      exact ⟨_, rfl⟩
    · rw [List.reverse_append, List.reverse_singleton, List.singleton_append, Path.dropDots,
        List.dropWhile_cons_of_neg (by rw [hkept]; simp)]
      exact ⟨_, rfl⟩
  obtain ⟨rest, hbody⟩ := hbody
  rw [Path.fileName?, hbody]
  simp [h.ne_dots]

end IsEntryName

/-- The path that names of entries lead to, one inside the other. -/
def Path.below (dir : Path) (names : List Text) : Path := names.foldl join dir

theorem Path.below_ne_nil {dir : Path} (hdir : dir ≠ []) {names : List Text}
    (hnames : ∀ name ∈ names, IsEntryName name) : dir.below names ≠ [] := by
  induction names generalizing dir with
  | nil => exact hdir
  | cons name names ih =>
      rw [List.forall_mem_cons] at hnames
      exact ih (hnames.1.join_ne_nil hdir) hnames.2

theorem Path.byteSize_le_below {dir : Path} (hdir : dir ≠ []) {names : List Text}
    (hnames : ∀ name ∈ names, IsEntryName name) :
    Text.byteSize dir ≤ Text.byteSize (dir.below names) := by
  induction names generalizing dir with
  | nil => exact Nat.le_refl _
  | cons name names ih =>
      rw [List.forall_mem_cons] at hnames
      calc Text.byteSize dir
          ≤ Text.byteSize dir + Text.byteSize name := Nat.le_add_right _ _
        _ ≤ Text.byteSize (dir.join name) := hnames.1.byteSize_add_le_join hdir
        _ ≤ Text.byteSize ((dir.join name).below names) := ih (hnames.1.join_ne_nil hdir) hnames.2

theorem Path.nul_notMem_below {dir : Path} (hdir : dir ≠ []) (hnul : '\x00' ∉ dir)
    {names : List Text} (hnames : ∀ name ∈ names, IsEntryName name) :
    '\x00' ∉ dir.below names := by
  induction names generalizing dir with
  | nil => exact hnul
  | cons name names ih =>
      rw [List.forall_mem_cons] at hnames
      exact ih (hnames.1.join_ne_nil hdir) (hnames.1.nul_notMem_join hdir hnul) hnames.2

namespace Tree

/-! ### Trees of a file system -/

mutual

/-- A tree as a file system holds it: an entry has a name of its own. -/
def WellFormed : Tree → Prop
  | file _ => True
  | directory entries => (entries.map Prod.fst).Nodup ∧ EntriesWellFormed entries

/-- Entries that can be named, of trees as a file system holds them. -/
def EntriesWellFormed : List (Text × Tree) → Prop
  | [] => True
  | (name, t) :: entries => IsEntryName name ∧ t.WellFormed ∧ EntriesWellFormed entries

end

theorem EntriesWellFormed.of_mem {entries : List (Text × Tree)} (h : EntriesWellFormed entries)
    {name : Text} {t : Tree} (hmem : (name, t) ∈ entries) : IsEntryName name ∧ t.WellFormed := by
  induction entries with
  | nil => cases hmem
  | cons e entries ih =>
      obtain ⟨hname, ht, hentries⟩ := h
      rcases List.mem_cons.mp hmem with rfl | hmem
      · exact ⟨hname, ht⟩
      · exact ih hentries hmem

/-- A fact about trees that a directory has if its entries have it. -/
theorem directoryInduction {motive : Tree → Prop} (hfile : ∀ bytes, motive (file bytes))
    (hdirectory : ∀ entries, (∀ name t, (name, t) ∈ entries → motive t) →
      motive (directory entries)) (t : Tree) : motive t :=
  @Tree.rec motive (fun entries => ∀ name t, (name, t) ∈ entries → motive t) (fun e => motive e.2)
    hfile hdirectory nofun
    (fun _ _ he hentries _ _ hmem => by
      rcases List.mem_cons.mp hmem with rfl | hmem
      · exact he
      · exact hentries _ _ hmem)
    (fun _ _ ht => ht) t

/-- What an entry leads to in a directory of distinct names. -/
theorem lookup?_cons_iff {entries : List (Text × Tree)} (hnodup : (entries.map Prod.fst).Nodup)
    {name : Text} {names : List Text} {u : Tree} :
    (directory entries).lookup? (name :: names) = some u ↔
      ∃ t, (name, t) ∈ entries ∧ t.lookup? names = some u := by
  rw [lookup?, Tree.entries, Option.bind_eq_some_iff]
  exact exists_congr fun t => by rw [lookup_eq_some_iff_mem hnodup]

/-- Every name on the way through a tree is the name of an entry. -/
theorem WellFormed.isEntryName {here u : Tree} (h : here.WellFormed) {names : List Text}
    (hlookup : here.lookup? names = some u) : ∀ name ∈ names, IsEntryName name := by
  induction names generalizing here with
  | nil => exact nofun
  | cons name names ih =>
      cases here with
      | file bytes => cases hlookup
      | directory entries =>
          obtain ⟨t, hmem, ht⟩ := (lookup?_cons_iff h.1).mp hlookup
          have hentry := EntriesWellFormed.of_mem h.2 hmem
          exact List.forall_mem_cons.mpr ⟨hentry.1, ih hentry.2 ht⟩

/-! ### The walk -/

mutual

/-- The files of a tree that is reached by `path`, in the order of a walk: the names that lead to
them, and their bytes. -/
def walk (path : Path) : Tree → List (List Text × ByteArray)
  | file bytes => [([], bytes)]
  | directory entries =>
    if maxPathBytes ≤ Text.byteSize path then []
    else ((walkEntries path entries).mergeSort fun a b => !decide (b.1 < a.1)).flatMap (·.2)

/-- For each entry, its name and its files. -/
def walkEntries (path : Path) : List (Text × Tree) → List (Text × List (List Text × ByteArray))
  | [] => []
  | (name, t) :: entries =>
    (name, (walk (path.join name) t).map fun f => (name :: f.1, f.2)) :: walkEntries path entries

end

theorem mem_walkEntries {path : Path} {entries : List (Text × Tree)}
    {e : Text × List (List Text × ByteArray)} :
    e ∈ walkEntries path entries ↔ ∃ t, (e.1, t) ∈ entries ∧
      e.2 = (t.walk (path.join e.1)).map fun f => (e.1 :: f.1, f.2) := by
  induction entries with
  | nil => simp [walkEntries]
  | cons first entries ih =>
      obtain ⟨name, t⟩ := first
      rw [walkEntries, List.mem_cons, ih]
      constructor
      · rintro (rfl | ⟨t', hmem, heq⟩)
        · exact ⟨t, List.mem_cons_self, rfl⟩
        · exact ⟨t', List.mem_cons_of_mem _ hmem, heq⟩
      · rintro ⟨t', hmem, heq⟩
        rcases List.mem_cons.mp hmem with hfirst | hmem
        · obtain ⟨hname, rfl⟩ := Prod.mk.inj hfirst
          left
          rw [← hname, ← heq]
        · exact Or.inr ⟨t', hmem, heq⟩

theorem map_fst_walkEntries (path : Path) (entries : List (Text × Tree)) :
    (walkEntries path entries).map Prod.fst = entries.map Prod.fst := by
  induction entries with
  | nil => rfl
  | cons first entries ih => rw [walkEntries, List.map_cons, List.map_cons, ih]

theorem filesOfEntries_eq {path : Path} {entries : List (Text × Tree)}
    (h : ∀ name t, (name, t) ∈ entries →
      ∀ path : Path, t.files path = (t.walk path).map fun f => path.below f.1) :
    filesOfEntries path entries =
      (walkEntries path entries).map fun e => (e.1, e.2.map fun f => path.below f.1) := by
  induction entries with
  | nil => rfl
  | cons first entries ih =>
      obtain ⟨name, t⟩ := first
      rw [filesOfEntries, walkEntries, h name t List.mem_cons_self,
        ih fun name t hmem => h name t (List.mem_cons_of_mem _ hmem), List.map_cons, List.map_map]
      rfl

theorem files_directory (path : Path) (entries : List (Text × Tree)) :
    (directory entries).files path =
      if maxPathBytes ≤ Text.byteSize path then []
      else
        ((filesOfEntries path entries).mergeSort fun a b => !decide (b.1 < a.1)).flatMap (·.2) := by
  rw [files]

/-- The paths of the files of a walk are the paths below the directory. -/
theorem files_eq_map_walk (t : Tree) (path : Path) :
    t.files path = (t.walk path).map fun f => path.below f.1 := by
  induction t using directoryInduction generalizing path with
  | hfile bytes => rfl
  | hdirectory entries ih =>
      have hsort : ((walkEntries path entries).map fun e =>
            (e.1, e.2.map fun f => path.below f.1)).mergeSort (fun a b => !decide (b.1 < a.1)) =
          ((walkEntries path entries).mergeSort fun a b => !decide (b.1 < a.1)).map fun e =>
            (e.1, e.2.map fun f => path.below f.1) := by
        refine (List.map_mergeSort ?_).symm
        exact fun _ _ _ _ => rfl
      rw [files_directory, walk]
      split
      · rfl
      · rw [filesOfEntries_eq ih, hsort, List.flatMap_map, List.map_flatMap]

/-- A walk lists the files in the order of their names, the outermost first. -/
theorem walk_inOrder {t : Tree} (h : t.WellFormed) (path : Path) :
    (t.walk path).Pairwise fun f g => f.1 < g.1 := by
  induction t using directoryInduction generalizing path with
  | hfile bytes => exact List.pairwise_singleton _ _
  | hdirectory entries ih =>
      rw [walk]
      split
      · exact List.Pairwise.nil
      · have hnodup : ((walkEntries path entries).map Prod.fst).Nodup := by
          rw [map_fst_walkEntries]
          exact h.1
        have hsorted := inNameOrder_mergeSort hnodup
        rw [List.pairwise_flatMap]
        refine ⟨fun e he => ?_, hsorted.imp_of_mem fun {e e'} he he' hlt f hf g hg => ?_⟩
        · obtain ⟨t, hmem, heq⟩ := mem_walkEntries.mp (List.mem_mergeSort.mp he)
          rw [heq, List.pairwise_map]
          refine (ih _ _ hmem (EntriesWellFormed.of_mem h.2 hmem).2 _).imp fun hlt => ?_
          exact List.cons_lt_cons_iff.mpr (Or.inr ⟨rfl, hlt⟩)
        · obtain ⟨t, -, heq⟩ := mem_walkEntries.mp (List.mem_mergeSort.mp he)
          obtain ⟨t', -, heq'⟩ := mem_walkEntries.mp (List.mem_mergeSort.mp he')
          rw [heq] at hf
          rw [heq'] at hg
          obtain ⟨f', -, rfl⟩ := List.mem_map.mp hf
          obtain ⟨g', -, rfl⟩ := List.mem_map.mp hg
          exact List.cons_lt_cons_iff.mpr (Or.inl hlt)

theorem nil_notMem_walk (path : Path) (entries : List (Text × Tree)) (bytes : ByteArray) :
    ([], bytes) ∉ (directory entries).walk path := by
  rw [walk]
  split
  · exact List.not_mem_nil
  · intro hmem
    obtain ⟨e, he, hmem⟩ := List.mem_flatMap.mp hmem
    obtain ⟨t, -, heq⟩ := mem_walkEntries.mp (List.mem_mergeSort.mp he)
    rw [heq] at hmem
    obtain ⟨f, -, hnil⟩ := List.mem_map.mp hmem
    cases hnil

theorem cons_mem_walk {path : Path} {entries : List (Text × Tree)} {name : Text}
    {names : List Text} {bytes : ByteArray} :
    (name :: names, bytes) ∈ (directory entries).walk path ↔
      Text.byteSize path < maxPathBytes ∧
        ∃ t, (name, t) ∈ entries ∧ (names, bytes) ∈ t.walk (path.join name) := by
  rw [walk]
  split
  · rename_i hsize
    simp [hsize]
  · rename_i hsize
    rw [and_iff_right (Nat.not_le.mp hsize), List.mem_flatMap]
    constructor
    · rintro ⟨⟨first, listed⟩, he, hmem⟩
      obtain ⟨t, hentry, hlisted⟩ := mem_walkEntries.mp (List.mem_mergeSort.mp he)
      rw [hlisted] at hmem
      obtain ⟨f, hf, heq⟩ := List.mem_map.mp hmem
      obtain ⟨hnames, rfl⟩ := Prod.mk.inj heq
      obtain ⟨rfl, rfl⟩ := List.cons.inj hnames
      exact ⟨t, hentry, hf⟩
    · rintro ⟨t, hentry, hf⟩
      refine ⟨(name, (t.walk (path.join name)).map fun f => (name :: f.1, f.2)), ?_, ?_⟩
      · exact List.mem_mergeSort.mpr (mem_walkEntries.mpr ⟨t, hentry, rfl⟩)
      · exact List.mem_map.mpr ⟨(names, bytes), hf, rfl⟩

/-- A walk lists the files that names lead to, unless it stops at a directory on the way. The path
of the innermost directory is the longest, so that one decides. -/
theorem mem_walk {t : Tree} (h : t.WellFormed) {path : Path} (hpath : path ≠ [])
    {names : List Text} {bytes : ByteArray} :
    (names, bytes) ∈ t.walk path ↔ t.lookup? names = some (file bytes) ∧
      (names ≠ [] → Text.byteSize (path.below names.dropLast) < maxPathBytes) := by
  induction names generalizing t path with
  | nil =>
      cases t with
      | file bytes' => simp [walk, lookup?, eq_comm]
      | directory entries => simp [nil_notMem_walk, lookup?]
  | cons name names ih =>
      cases t with
      | file bytes' => simp [walk, lookup?, Tree.entries]
      | directory entries =>
          rw [cons_mem_walk, lookup?_cons_iff h.1, imp_iff_right (List.cons_ne_nil _ _)]
          -- Whether the walk gets to the entry, and on from there.
          have hsize {t : Tree} (hentry : (name, t) ∈ entries)
              (hlookup : t.lookup? names = some (file bytes)) :
              Text.byteSize (path.below (name :: names).dropLast) < maxPathBytes ↔
                Text.byteSize path < maxPathBytes ∧ (names ≠ [] →
                  Text.byteSize ((path.join name).below names.dropLast) < maxPathBytes) := by
            obtain ⟨hname, ht⟩ := EntriesWellFormed.of_mem h.2 hentry
            cases names with
            | nil => simp [Path.below]
            | cons inner names =>
                have hle : Text.byteSize path ≤
                    Text.byteSize ((path.join name).below (inner :: names).dropLast) :=
                  Path.byteSize_le_below hpath (List.forall_mem_cons.mpr
                    ⟨hname, fun n hn => ht.isEntryName hlookup n (List.dropLast_subset _ hn)⟩)
                rw [List.dropLast_cons_cons, imp_iff_right (List.cons_ne_nil _ _)]
                exact ⟨fun hlt => ⟨hle.trans_lt hlt, hlt⟩, And.right⟩
          have hstep {t : Tree} (hentry : (name, t) ∈ entries) :=
            ih (EntriesWellFormed.of_mem h.2 hentry).2
              ((EntriesWellFormed.of_mem h.2 hentry).1.join_ne_nil hpath)
          constructor
          · rintro ⟨hpathSize, t, hentry, hmem⟩
            obtain ⟨hlookup, hinner⟩ := (hstep hentry).mp hmem
            exact ⟨⟨t, hentry, hlookup⟩, (hsize hentry hlookup).mpr ⟨hpathSize, hinner⟩⟩
          · rintro ⟨⟨t, hentry, hlookup⟩, hlt⟩
            obtain ⟨hpathSize, hinner⟩ := (hsize hentry hlookup).mp hlt
            exact ⟨hpathSize, t, hentry, (hstep hentry).mpr ⟨hlookup, hinner⟩⟩

/-! ### Reading what a walk lists -/

/-- Following the first parts of a path either fails, whatever comes after them, or leads to a
place from where the other parts go on. -/
theorem follow_append (above : List Tree) (here : Tree) (parts : List Text) :
    (∃ problem, ∀ rest, follow above here (parts ++ rest) = .error problem) ∨
      ∃ above' t, ∀ rest, follow above here (parts ++ rest) = follow above' t rest := by
  induction parts generalizing above here with
  | nil => exact Or.inr ⟨above, here, fun _ => rfl⟩
  | cons part parts ih =>
      simp only [List.cons_append, follow]
      split
      · exact Or.inl ⟨_, fun _ => rfl⟩
      · split
        · exact ih above here
        · split
          · split <;> exact ih _ _
          · split
            · exact Or.inl ⟨_, fun _ => rfl⟩
            · split
              · exact Or.inl ⟨_, fun _ => rfl⟩
              · exact ih _ _

/-- An entry is one part further than its directory, with or without a slash at the end. -/
theorem follow_entry {above : List Tree} {here t : Tree} {parts : List Text}
    {entries : List (Text × Tree)}
    (h : follow above here parts = .ok (directory entries) ∨
      follow above here (parts ++ [[]]) = .ok (directory entries))
    (hnodup : (entries.map Prod.fst).Nodup) {name : Text} (hname : IsEntryName name)
    (hentry : (name, t) ∈ entries) : follow above here (parts ++ [name]) = .ok t := by
  obtain ⟨problem, hfail⟩ | ⟨above', place, hgo⟩ := follow_append above here parts
  · rw [← List.append_nil parts, hfail, List.append_nil, hfail] at h
    simp at h
  · have hplace : place = directory entries := by
      rw [← List.append_nil parts, hgo, List.append_nil, hgo] at h
      cases place with
      | file bytes => simp [follow, isDirectory] at h
      | directory entries' => simpa [follow, isDirectory] using h
    subst hplace
    have hopen : (name.isEmpty || name == ['.']) = false := by simp [hname.ne_nil, hname.ne_dot]
    have hdots : (name == ['.', '.']) = false := by simp [hname.ne_dots]
    rw [hgo]
    simp only [follow, isDirectory, Tree.entries, hopen, hdots, Nat.not_lt.mpr hname.size_le,
      (lookup_eq_some_iff_mem hnodup).mpr hentry]
    rfl

/-- A path that could lead somewhere is refused if it is too long. -/
theorem find_of_long {root : Tree} {path : Path} (hnul : '\x00' ∉ path) (hne : path ≠ [])
    (hsize : maxPathBytes ≤ Text.byteSize path) : root.find path = .error .nameTooLong := by
  rw [find, if_neg (by simpa using hnul), if_neg (by simpa using hne), if_pos hsize]

/-- What a path that leads somewhere is like. -/
theorem find_eq_ok {root t : Tree} {path : Path} (h : root.find path = .ok t) :
    '\x00' ∉ path ∧ path ≠ [] ∧ Text.byteSize path < maxPathBytes ∧
      follow [] (if path.isAbsolute then empty else root) path.parts = .ok t := by
  rw [find] at h
  split at h
  · cases h
  · split at h
    · cases h
    · split at h
      · cases h
      · rename_i hnul hempty hsize
        exact ⟨by simpa using hnul, by simpa using hempty, Nat.not_le.mp hsize, h⟩

/-- A path below a directory leads to what is there, unless it is refused. -/
theorem find_below {root here t : Tree} {dir : Path} (hdir : root.find dir = .ok here)
    (h : here.WellFormed) {names : List Text} (hlookup : here.lookup? names = some t) :
    root.find (dir.below names) =
      if maxPathBytes ≤ Text.byteSize (dir.below names) then .error .nameTooLong else .ok t := by
  induction names generalizing here dir with
  | nil =>
      obtain ⟨-, -, hsize, -⟩ := find_eq_ok hdir
      rw [Path.below, List.foldl_nil, if_neg (Nat.not_le.mpr hsize), hdir]
      exact congrArg Except.ok (Option.some.inj hlookup)
  | cons name names ih =>
      cases here with
      | file bytes => cases hlookup
      | directory entries =>
          obtain ⟨inner, hentry, hinner⟩ := (lookup?_cons_iff h.1).mp hlookup
          obtain ⟨hname, hwell⟩ := EntriesWellFormed.of_mem h.2 hentry
          obtain ⟨hnul, hne, -, hfollow⟩ := find_eq_ok hdir
          have hnul' := hname.nul_notMem_join hne hnul
          have hne' := hname.join_ne_nil hne
          by_cases hsize : maxPathBytes ≤ Text.byteSize (dir.join name)
          · have hnames := hwell.isEntryName hinner
            have hlong := hsize.trans (Path.byteSize_le_below hne' hnames)
            rw [if_pos (show maxPathBytes ≤ Text.byteSize (dir.below (name :: names)) from hlong)]
            exact find_of_long (Path.nul_notMem_below hne' hnul' hnames)
              (Path.below_ne_nil hne' hnames) hlong
          · refine ih ?_ hwell hinner
            obtain ⟨parts, -, hparts, hdirParts⟩ := hname.parts_join hne
            have hplace : follow [] (if dir.isAbsolute then empty else root) (parts ++ [name]) =
                .ok inner := by
              refine follow_entry (hdirParts.imp ?_ ?_) h.1 hname hentry
              · exact fun heq => heq ▸ hfollow
              · exact fun heq => heq ▸ hfollow
            rw [find, if_neg (by simpa using hnul'), if_neg (by simpa using hne'), if_neg hsize,
              hname.isAbsolute_join hne, hparts, hplace]

/-- Reading a file that a directory holds gives its bytes, unless its path is refused. -/
theorem read_below {root here : Tree} {dir : Path} (hdir : root.find dir = .ok here)
    (h : here.WellFormed) {names : List Text} {bytes : ByteArray}
    (hlookup : here.lookup? names = some (file bytes)) :
    root.read (dir.below names) =
      if maxPathBytes ≤ Text.byteSize (dir.below names) then .error .nameTooLong
      else .ok bytes := by
  rw [read, find_below hdir h hlookup]
  by_cases hsize : maxPathBytes ≤ Text.byteSize (dir.below names)
  · rw [if_pos hsize, if_pos hsize]
  · rw [if_neg hsize, if_neg hsize]

end Tree

end ElementScript
