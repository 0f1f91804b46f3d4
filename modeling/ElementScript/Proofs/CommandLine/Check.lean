import ElementScript.CommandLine.Run
import ElementScript.Proofs.CommandLine.Arguments
import ElementScript.Proofs.Files.Walk

/-!
# What a check reports

A check goes through the scripts below a directory, and what it says of one depends on that script
alone: on its path and on what reading it gives (`scriptReport?`). So the report has one verdict for
each script, in the order of a walk, and neither the other scripts nor the rest of the files show in
it (`check_reports_scripts`). In a tree a script is read unless its path is one that the system
refuses (`check_reports_tree`); one in a directory with such a path is not found.
-/

namespace ElementScript

namespace Command

variable {palette : Diagnostic.Palette} {files : FileAccess Id}

/-! ### One script -/

/-- A file below a directory that a check takes for a script, by the names that lead to it. -/
structure IsScriptBelow (dir : Path) (here : Tree) (names : List Text) : Prop where
  found : ∃ bytes, here.lookup? names = some (.file bytes)
  named : ∃ name, names.getLast? = some name ∧ "_".toList <+: name ∧ ".js".toList <:+ name
  /-- The directory with the file has a path that is not refused. -/
  reached : Text.byteSize (dir.below names.dropLast) < Tree.maxPathBytes

/-- Bytes that are a text in UTF-8, and the text compiles. -/
def BytesCompile (bytes : ByteArray) : Prop :=
  ∃ script : Text, bytes = (String.ofList script).toUTF8 ∧
    ∃ compiled, ElementScript.compile script = .ok compiled

/-- Whether a script passes the check: it can be read, and its bytes compile. -/
def Passes (files : FileAccess Id) (path : Path) : Prop :=
  ∃ bytes, files.read path = .ok bytes ∧ BytesCompile bytes

theorem passes_iff_of_read {path : Path} {bytes : ByteArray} (h : files.read path = .ok bytes) :
    Passes files path ↔ BytesCompile bytes := by
  constructor
  · rintro ⟨bytes', hread, hcompile⟩
    obtain rfl := Except.ok.inj (h.symm.trans hread)
    exact hcompile
  · exact fun hcompile => ⟨bytes, h, hcompile⟩

theorem not_passes_of_read {path : Path} {problem : FileProblem}
    (h : files.read path = .error problem) : ¬ Passes files path := by
  rintro ⟨bytes, hread, -⟩
  cases h.symm.trans hread

/-- What a check says against a script. -/
def scriptReport? (palette : Diagnostic.Palette) (files : FileAccess Id) (path : Path) :
    Option String :=
  failureReport? palette path (files.readText path)

theorem decodeUtf8_eq_ok_iff {bytes : ByteArray} {t : Text} :
    decodeUtf8 bytes = .ok t ↔ bytes = (String.ofList t).toUTF8 := by
  rw [decodeUtf8, String.fromUTF8?]
  constructor
  · intro h
    split at h
    · rename_i s hs
      split at hs
      · obtain rfl := Option.some.inj hs
        rw [← Except.ok.inj h, String.ofList_toList]
        rfl
      · cases hs
    · cases h
  · rintro rfl
    rw [dif_pos (show (String.ofList t).toUTF8.IsValidUTF8 from (String.ofList t).isValidUTF8)]
    exact congrArg Except.ok String.toList_ofList

theorem failureReport?_eq_none_iff {path : Path} {contents : Except FileProblem Text} :
    failureReport? palette path contents = none ↔
      ∃ script, contents = .ok script ∧
        ∃ compiled, ElementScript.compile script = .ok compiled := by
  cases contents with
  | error problem => simp [failureReport?]
  | ok script =>
      rw [failureReport?]
      cases hcompile : ElementScript.compile script with
      | error d => simp [hcompile]
      | ok compiled => simp [hcompile]

theorem scriptReport?_eq_none_iff {path : Path} :
    scriptReport? palette files path = none ↔ Passes files path := by
  have htext : files.readText path = (files.read path).bind decodeUtf8 := rfl
  rw [scriptReport?, failureReport?_eq_none_iff, htext]
  cases hread : files.read path with
  | error problem => simp [Except.bind, not_passes_of_read hread]
  | ok bytes =>
      have hdecode : (Except.ok bytes).bind decodeUtf8 = decodeUtf8 bytes := rfl
      rw [passes_iff_of_read hread, hdecode]
      simp only [decodeUtf8_eq_ok_iff]
      rfl

/-- A script is known by the name of its file. -/
theorem isScript_below_iff {dir : Path} (hdir : dir ≠ []) {names : List Text}
    (hnames : ∀ name ∈ names, IsEntryName name) (hne : names ≠ []) :
    isScript (dir.below names) = true ↔
      ∃ name, names.getLast? = some name ∧ "_".toList <+: name ∧ ".js".toList <:+ name := by
  obtain ⟨outer, name, rfl⟩ := (List.eq_nil_or_concat names).resolve_left hne
  rw [List.concat_eq_append, List.forall_mem_append] at hnames
  have hname := hnames.2 name (List.mem_singleton_self _)
  have hbelow : dir.below (outer ++ [name]) = (dir.below outer).join name := List.foldl_append
  rw [List.concat_eq_append, hbelow, isScript,
    hname.fileName?_join (Path.below_ne_nil hdir hnames.1), List.getLast?_append]
  simp

/-! ### All scripts -/

/-- The scripts below a directory, by the names that lead to them, in the order of a walk. -/
structure ScriptsBelow (dir : Path) (here : Tree) (scripts : List (List Text)) : Prop where
  inOrder : scripts.Pairwise (· < ·)
  mem_iff : ∀ names, names ∈ scripts ↔ IsScriptBelow dir here names

/-- The scripts that a check goes through. -/
def scriptsBelow (dir : Path) (here : Tree) : List (List Text) :=
  ((here.walk dir).map Prod.fst).filter fun names => isScript (dir.below names)

theorem scriptsBelow_spec {dir : Path} (hdir : dir ≠ []) {entries : List (Text × Tree)}
    (h : (Tree.directory entries).WellFormed) :
    ScriptsBelow dir (.directory entries) (scriptsBelow dir (.directory entries)) where
  inOrder := (List.pairwise_map.mpr (Tree.walk_inOrder h dir)).filter _
  mem_iff names := by
    have hwalk : names ∈ ((Tree.directory entries).walk dir).map Prod.fst ↔
        ∃ bytes, (names, bytes) ∈ (Tree.directory entries).walk dir := by simp
    rw [scriptsBelow, List.mem_filter, hwalk]
    simp only [Tree.mem_walk h hdir]
    constructor
    · rintro ⟨⟨bytes, hfound, hreached⟩, hscript⟩
      have hne : names ≠ [] := by
        rintro rfl
        cases hfound
      exact ⟨⟨bytes, hfound⟩,
        (isScript_below_iff hdir (h.isEntryName hfound) hne).mp hscript, hreached hne⟩
    · rintro ⟨⟨bytes, hfound⟩, hnamed, hreached⟩
      have hne : names ≠ [] := by
        rintro rfl
        cases hfound
      exact ⟨⟨bytes, hfound, fun _ => hreached⟩,
        (isScript_below_iff hdir (h.isEntryName hfound) hne).mpr hnamed⟩

/-- A check of a directory looks at its scripts one by one, each by itself. -/
theorem runCheck_eq {dir : Path} {here : Tree} (hdir : files.isDirectory dir = true)
    (hwalk : files.filesBelow dir = here.files dir) :
    runCheck palette files dir = checkOutcome palette dir ((scriptsBelow dir here).map fun names =>
      (dir.below names, scriptReport? palette files (dir.below names))) := by
  have hpaths : (files.filesBelow dir).filter isScript =
      (scriptsBelow dir here).map dir.below := by
    have hwalked : here.files dir = ((here.walk dir).map Prod.fst).map dir.below := by
      rw [Tree.files_eq_map_walk, List.map_map]
      rfl
    rw [hwalk, hwalked, List.filter_map]
    rfl
  have hscripts (paths : List Path) :
      (paths.mapM fun path => (pure (path, scriptReport? palette files path) : Id _)) =
      paths.map fun path => (path, scriptReport? palette files path) :=
    List.mapM_pure
  calc runCheck palette files dir
      = checkOutcome palette dir (((files.filesBelow dir).filter isScript).map fun path =>
          (path, scriptReport? palette files path)) := by
        rw [← hscripts]
        exact if_pos hdir
    _ = _ := by
        rw [hpaths, List.map_map]
        rfl

/-- What a check says of scripts, whether it tells its time, and the code that it gives. -/
structure Reports (palette : Diagnostic.Palette) (files : FileAccess Id) (dir : Path)
    (scripts : List (List Text)) (outcome : Outcome) : Prop where
  output : outcome.output = ""
  empty : scripts = [] →
    outcome.errors = "No component scripts found in " ++ String.ofList dir ++ "\n"
  /-- One verdict for each script, and how many there were and failed. -/
  lines : scripts ≠ [] → outcome.errors =
    String.join (scripts.map fun names =>
      statusLines palette (dir.below names) (scriptReport? palette files (dir.below names))) ++
    summaryLine palette scripts.length
      (scripts.countP fun names => (scriptReport? palette files (dir.below names)).isSome)
  verdict : ∀ names ∈ scripts,
    scriptReport? palette files (dir.below names) = none ↔ Passes files (dir.below names)
  timed : outcome.timed = true ↔ scripts ≠ []
  code : outcome.code = 0 ↔ scripts ≠ [] ∧ ∀ names ∈ scripts, Passes files (dir.below names)

theorem checkOutcome_reports (palette : Diagnostic.Palette) (files : FileAccess Id) (dir : Path)
    (scripts : List (List Text)) :
    Reports palette files dir scripts (checkOutcome palette dir (scripts.map fun names =>
      (dir.below names, scriptReport? palette files (dir.below names)))) := by
  cases scripts with
  | nil =>
      refine ⟨rfl, fun _ => rfl, nofun, nofun, ?_, ?_⟩ <;>
        simp [checkOutcome, Outcome.failure]
  | cons first rest =>
      have hfailed : ((first :: rest).map fun names =>
            (dir.below names, scriptReport? palette files (dir.below names))).countP
              (·.2.isSome) =
          (first :: rest).countP
            fun names => (scriptReport? palette files (dir.below names)).isSome :=
        List.countP_map
      rw [checkOutcome, if_neg (by simp), hfailed, List.length_map, List.map_map]
      refine ⟨rfl, nofun, fun _ => rfl, fun _ _ => scriptReport?_eq_none_iff, by simp, ?_⟩
      have hzero : (first :: rest).countP
            (fun names => (scriptReport? palette files (dir.below names)).isSome) = 0 ↔
          ∀ names ∈ first :: rest, Passes files (dir.below names) := by
        rw [List.countP_eq_zero]
        refine forall₂_congr fun names _ => ?_
        rw [← @scriptReport?_eq_none_iff palette]
        simp
      rw [and_iff_right (List.cons_ne_nil _ _), ← hzero]
      simp

theorem runProgramWith_check (input : ByteArray) {args : List Text} {dir : Path}
    (hargs : Invocation.ofArgs args = .run (.check dir)) :
    runProgramWith (m := Id) palette files input args = runCheck palette files dir := by
  rw [runProgramWith, hargs]
  rfl

section

variable {root : Tree} {dir : Path} {entries : List (Text × Tree)}

/-- In a tree a script passes if its path is not refused and its bytes compile. -/
theorem passes_access_iff (hdir : root.find dir = .ok (.directory entries))
    (h : (Tree.directory entries).WellFormed) {names : List Text} {bytes : ByteArray}
    (hfound : (Tree.directory entries).lookup? names = some (.file bytes)) :
    Passes root.access (dir.below names) ↔
      Text.byteSize (dir.below names) < Tree.maxPathBytes ∧ BytesCompile bytes := by
  have hread : root.access.read (dir.below names) =
      if Tree.maxPathBytes ≤ Text.byteSize (dir.below names) then .error .nameTooLong
      else .ok bytes := Tree.read_below hdir h hfound
  by_cases hsize : Tree.maxPathBytes ≤ Text.byteSize (dir.below names)
  · rw [if_pos hsize] at hread
    simp [not_passes_of_read hread, hsize]
  · rw [if_neg hsize] at hread
    rw [passes_iff_of_read hread, and_iff_right (Nat.not_le.mp hsize)]

theorem runProgramWith_access (palette : Diagnostic.Palette) (input : ByteArray)
    {args : List Text} (hargs : Invocation.ofArgs args = .run (.check dir))
    (hdir : root.find dir = .ok (.directory entries)) :
    runProgramWith (m := Id) palette root.access input args =
      checkOutcome palette dir ((scriptsBelow dir (.directory entries)).map fun names =>
        (dir.below names, scriptReport? palette root.access (dir.below names))) := by
  have hisDirectory : root.access.isDirectory dir = true := by
    simp [Tree.access, hdir, Tree.isDirectory]
  have hwalk : root.access.filesBelow dir = (Tree.directory entries).files dir := by
    simp [Tree.access, hdir]
  rw [runProgramWith_check input hargs, runCheck_eq hisDirectory hwalk]

/-- A check of a directory in a tree: the scripts that pass are those whose path is not refused and
whose bytes compile. -/
theorem check_reports_tree (palette : Diagnostic.Palette) (input : ByteArray) {args : List Text}
    (hargs : Invocation.ofArgs args = .run (.check dir))
    (hdir : root.find dir = .ok (.directory entries)) (h : (Tree.directory entries).WellFormed) :
    ∃ scripts, ScriptsBelow dir (.directory entries) scripts ∧
      Reports palette root.access dir scripts
        (runProgramWith (m := Id) palette root.access input args) ∧
      ∀ names ∈ scripts, ∀ bytes,
        (Tree.directory entries).lookup? names = some (.file bytes) →
          (Passes root.access (dir.below names) ↔
            Text.byteSize (dir.below names) < Tree.maxPathBytes ∧ BytesCompile bytes) := by
  have hne := Invocation.ne_nil_of_ofArgs hargs
  refine ⟨scriptsBelow dir (.directory entries), scriptsBelow_spec hne h, ?_, ?_⟩
  · rw [runProgramWith_access palette input hargs hdir]
    exact checkOutcome_reports palette root.access dir _
  · exact fun names _ bytes hfound => passes_access_iff hdir h hfound

end

/-! ### Paths that are refused -/

/-- A path with dots in front. -/
def dotted : Nat → Path → Path
  | 0, p => p
  | n + 1, p => '.' :: '/' :: dotted n p

theorem byteSize_dotted (n : Nat) (p : Path) :
    Text.byteSize (dotted n p) = 2 * n + Text.byteSize p := by
  induction n with
  | zero => simp [dotted]
  | succ n ih =>
      rw [dotted, Text.byteSize_cons, Text.byteSize_cons, ih, show '.'.utf8Size = 1 from rfl,
        show '/'.utf8Size = 1 from rfl]
      omega

theorem parts_dotted (n : Nat) (p : Path) :
    Path.parts (dotted n p) = List.replicate n ['.'] ++ Path.parts p := by
  induction n with
  | zero => rfl
  | succ n ih =>
      rw [dotted, List.replicate_succ, List.cons_append, ← ih]
      exact List.splitOnP_append_cons ['.'] (dotted n p) rfl

theorem follow_dots {here : Tree} (h : here.isDirectory = true) (n : Nat) (parts : List Text) :
    Tree.follow [] here (List.replicate n ['.'] ++ parts) = Tree.follow [] here parts := by
  induction n with
  | zero => rfl
  | succ n ih =>
      rw [List.replicate_succ, List.cons_append, Tree.follow, h, ih]
      rfl

/-- Dots in front of a path change what it names in no other way than that it is refused. -/
theorem find_dotted {root t : Tree} (h : root.isDirectory = true) {n : Nat} {p : Path}
    (hp : root.find p = .ok t) (hrelative : Path.isAbsolute p = false)
    (hsize : 2 * n + Text.byteSize p < Tree.maxPathBytes) : root.find (dotted n p) = .ok t := by
  obtain ⟨hnul, hne, -, hfollow⟩ := Tree.find_eq_ok hp
  have hnul' : '\x00' ∉ dotted n p := by
    induction n with
    | zero => exact hnul
    | succ n ih => simpa [dotted] using ih (by omega)
  have hne' : dotted n p ≠ [] := by cases n <;> simp [dotted, hne]
  have hrelative' : Path.isAbsolute (dotted n p) = false := by
    cases n with
    | zero => exact hrelative
    | succ n => rfl
  rw [hrelative] at hfollow
  rw [Tree.find, if_neg (by simpa using hnul'), if_neg (by simpa using hne'),
    if_neg (by rw [byteSize_dotted]; omega), hrelative', parts_dotted]
  exact (follow_dots h n _).trans hfollow

theorem ofArgs_check_dotted (n : Nat) (p : Path) :
    Invocation.ofArgs ["check".toList, dotted (n + 1) p] = .run (.check (dotted (n + 1) p)) := by
  simp [dotted, Invocation.ofArgs, Invocation.check, Invocation.ofArguments, Arguments.take,
    Arguments.takeFrom, Arguments.isDashed, Arguments.addValue?]

/-- A script of one method. -/
def methodBytes : ByteArray := "f() \x7b\x7d".toUTF8

theorem methodBytes_compile : BytesCompile methodBytes := by
  have hok : (ElementScript.compile "f() \x7b\x7d".toList).isOk = true := by decide +kernel
  refine ⟨"f() \x7b\x7d".toList, congrArg String.toUTF8 String.ofList_toList.symm, ?_⟩
  cases hcompile : ElementScript.compile "f() \x7b\x7d".toList with
  | error d =>
      rw [hcompile] at hok
      cases hok
  | ok compiled => exact ⟨compiled, rfl⟩

/-- The path of a directory can be too long for it to be entered, though that of the directory
around it is not. The script in it is not found, and it compiles. -/
theorem longDirectory_unlisted :
    let dir := dotted 2045 "d".toList
    let inner := [("_a.js".toList, Tree.file methodBytes)]
    let entries := [("aaaaaaaaaa".toList, Tree.directory inner)]
    let root := Tree.directory [("d".toList, .directory entries)]
    root.find dir = .ok (.directory entries) ∧
      (Tree.directory entries).lookup? ["aaaaaaaaaa".toList, "_a.js".toList] =
        some (.file methodBytes) ∧ BytesCompile methodBytes ∧
      runProgram (m := Id) root.access .empty ["check".toList, dir] =
        .failure ("No component scripts found in " ++ String.ofList dir ++ "\n") := by
  intro dir inner entries root
  have hdir : root.find dir = .ok (.directory entries) := find_dotted rfl rfl rfl (by decide)
  refine ⟨hdir, rfl, methodBytes_compile, ?_⟩
  have hargs : Invocation.ofArgs ["check".toList, dir] = .run (.check dir) :=
    ofArgs_check_dotted 2044 "d".toList
  have hsize : Text.byteSize dir = 4091 := byteSize_dotted 2045 "d".toList
  have hname : IsEntryName "aaaaaaaaaa".toList := by decide
  have hlong : Tree.maxPathBytes ≤ Text.byteSize (dir.join "aaaaaaaaaa".toList) :=
    le_trans (by rw [hsize]; decide) (hname.byteSize_add_le_join (Tree.find_eq_ok hdir).2.1)
  have hinner : (Tree.directory inner).walk (dir.join "aaaaaaaaaa".toList) = [] := by
    rw [Tree.walk, if_pos hlong]
  have hscripts : scriptsBelow dir (.directory entries) = [] := by
    rw [scriptsBelow, Tree.walk, if_neg (Nat.not_le.mpr (Tree.find_eq_ok hdir).2.2.1),
      Tree.walkEntries, hinner, Tree.walkEntries, List.mergeSort_singleton]
    rfl
  rw [runProgram, runProgramWith_access .plain .empty hargs hdir, hscripts]
  rfl

end Command

end ElementScript
