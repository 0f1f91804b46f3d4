import ElementScript.Files.Path

/-!
# Reading files

What the program asks of a file system, in any monad: the contents of a file, whether a path names a
directory, and the files below one. `Tree.access` answers it in pure code.
-/

namespace ElementScript

/-- Why a file cannot be read. -/
inductive FileProblem where
  | notFound
  | notDirectory
  | isDirectory
  | nameTooLong
  | nulInName
  | notUtf8
  /-- Anything else, in the words of the system. -/
  | other (message : String)
  deriving Repr, DecidableEq

/-- What is wrong, in words. -/
def FileProblem.message : FileProblem → String
  | notFound => "No such file or directory (os error 2)"
  | notDirectory => "Not a directory (os error 20)"
  | isDirectory => "Is a directory (os error 21)"
  | nameTooLong => "File name too long (os error 36)"
  | nulInName => "file name contained an unexpected NUL byte"
  | notUtf8 => "stream did not contain valid UTF-8"
  | other message => message

/-- A view of a file system. -/
structure FileAccess (m : Type → Type) where
  /-- The bytes of a file. -/
  read : Path → m (Except FileProblem ByteArray)
  /-- Whether the path names a directory. -/
  isDirectory : Path → m Bool
  /-- The paths of the files at any depth below a directory: the entries of each directory by name,
  and the files of a directory in its place among them. -/
  filesBelow : Path → m (List Path)

/-- The text that bytes encode in UTF-8. -/
def decodeUtf8 (bytes : ByteArray) : Except FileProblem Text :=
  match String.fromUTF8? bytes with
  | some s => .ok s.toList
  | none => .error .notUtf8

/-- The text of a file. -/
def FileAccess.readText {m : Type → Type} [Monad m] (files : FileAccess m) (path : Path) :
    m (Except FileProblem Text) := do
  return (← files.read path).bind decodeUtf8

end ElementScript
