import ElementScript.Files.Access

/-!
# Directory trees

A file system held in memory. A path is looked up part by part from the directory at the top
(`Tree.find`), and only through directories that are there. Of what is around the tree nothing is
known but that it is directories: the one above the top and the root are taken to be empty.
`Tree.files` lists the files below a directory in the order of a walk, and a change that cannot be
made leaves the tree as it is.
-/

namespace ElementScript

/-- A file, or a directory with named entries. -/
inductive Tree where
  | file (bytes : ByteArray)
  | directory (entries : List (Text × Tree))

namespace Tree

/-- A directory without entries. -/
def empty : Tree := directory []

/-- The entries of a directory; a file has none. -/
def entries : Tree → List (Text × Tree)
  | file _ => []
  | directory entries => entries

/-- Whether the tree is a directory. -/
def isDirectory : Tree → Bool
  | file _ => false
  | directory _ => true

/-! ### Looking up paths -/

/-- The longest name of an entry, in bytes. -/
def maxNameBytes : Nat := 255

/-- The length of a path, in bytes, from which on it is refused. -/
def maxPathBytes : Nat := 4096

/-- Follow the parts of a path from a tree; `above` holds the directories around it, from the inside
out. -/
def follow (above : List Tree) (here : Tree) : List Text → Except FileProblem Tree
  | [] => .ok here
  | part :: parts =>
    if !here.isDirectory then .error .notDirectory
    else if part.isEmpty || part == ['.'] then follow above here parts
    else if part == ['.', '.'] then
      match above with
      | [] => follow [] empty parts
      | outer :: above => follow above outer parts
    else if maxNameBytes < Text.byteSize part then .error .nameTooLong
    else match here.entries.lookup part with
      | none => .error .notFound
      | some inner => follow (here :: above) inner parts

/-- What a path names. -/
def find (root : Tree) (path : Path) : Except FileProblem Tree :=
  if path.contains '\x00' then .error .nulInName
  else if path.isEmpty then .error .notFound
  else if maxPathBytes ≤ Text.byteSize path then .error .nameTooLong
  else follow [] (if Path.isAbsolute path then empty else root) (Path.parts path)

/-- The bytes of the file that a path names. -/
def read (root : Tree) (path : Path) : Except FileProblem ByteArray :=
  match root.find path with
  | .error problem => .error problem
  | .ok (file bytes) => .ok bytes
  | .ok (directory _) => .error .isDirectory

/-! ### Walking -/

mutual

/-- The files of a tree that is reached by `path`, in the order of a walk: the entries of each
directory by name. A directory whose path is refused is passed over. -/
def files (path : Path) : Tree → List Path
  | file _ => [path]
  | directory entries =>
    if maxPathBytes ≤ Text.byteSize path then []
    else ((filesOfEntries path entries).mergeSort fun a b => !decide (b.1 < a.1)).flatMap (·.2)

/-- For each entry, its name and its files. -/
def filesOfEntries (path : Path) : List (Text × Tree) → List (Text × List Path)
  | [] => []
  | (name, t) :: entries => (name, files (Path.join path name) t) :: filesOfEntries path entries

end

/-! ### Changing files -/

/-- Replace the entry of a name, or add one. -/
def setEntry (name : Text) (t : Tree) : List (Text × Tree) → List (Text × Tree)
  | [] => [(name, t)]
  | (n, u) :: entries => if n = name then (n, t) :: entries else (n, u) :: setEntry name t entries

/-- What names of entries lead to, one inside the other. -/
def lookup? (here : Tree) : List Text → Option Tree
  | [] => some here
  | name :: names => (here.entries.lookup name).bind (·.lookup? names)

/-- Change what names of entries lead to, where `none` stands for no entry. Without a directory to
hold the entry nothing changes. -/
def alter (change : Option Tree → Option Tree) (here : Tree) : List Text → Tree
  | [] => here
  | [name] =>
    match here with
    | file _ => here
    | directory entries =>
      match change (entries.lookup name) with
      | some t => directory (setEntry name t entries)
      | none => directory (entries.filter (·.1 != name))
  | name :: names =>
    match here.entries.lookup name with
    | none => here
    | some inner => directory (setEntry name (alter change inner names) here.entries)

/-- Walk on from the place to which the names in `here` lead, last one first, and make the
directories that are missing: the tree then, and the place that is reached. There is none through a
file or out of the tree. -/
def makeWay? (root : Tree) (here : List Text) : List Text → Option (Tree × List Text)
  | [] => some (root, here)
  | part :: parts =>
    if part.isEmpty || part == ['.'] then makeWay? root here parts
    else if part == ['.', '.'] then
      match here with
      | [] => none
      | _ :: outer => makeWay? root outer parts
    else
      let names := (part :: here).reverse
      let made := root.alter (fun t? => some (t?.getD empty)) names
      if (made.lookup? names).any isDirectory then makeWay? made (part :: here) parts else none

/-- The names that lead to the entry of a path, in the tree with the directories around it made. -/
def place? (root : Tree) (path : Path) : Option (Tree × List Text) :=
  if Path.isAbsolute path then none
  else (Path.fileName? path).bind fun name =>
    (makeWay? root [] (Path.parts ((Path.parent? path).getD []))).map fun (made, here) =>
      (made, (name :: here).reverse)

/-- The tree with a file at the path, which replaces a file but no directory. -/
def writeFile (root : Tree) (path : Path) (bytes : ByteArray) : Tree :=
  (place? root path).elim root fun (made, names) =>
    made.alter (fun t? => some ((t?.filter isDirectory).getD (file bytes))) names

/-- The tree with a directory at the path, which replaces nothing. -/
def makeDirectory (root : Tree) (path : Path) : Tree :=
  if Path.isAbsolute path then root else ((makeWay? root [] (Path.parts path)).map (·.1)).getD root

/-- The tree without what the path names. -/
def remove (root : Tree) (path : Path) : Tree :=
  match root.find path with
  | .error _ => root
  | .ok _ => (place? root path).elim root fun (found, names) => found.alter (fun _ => none) names

/-- The view of a tree as a file system. -/
def access (root : Tree) : FileAccess Id where
  read := root.read
  isDirectory path := match root.find path with
    | .ok t => t.isDirectory
    | .error _ => false
  filesBelow path := match root.find path with
    | .ok t => t.files path
    | .error _ => []

end Tree

end ElementScript
