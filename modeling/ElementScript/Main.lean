import ElementScript.CommandLine.Run

/-!
# The program

The outer layer: the files of the system, standard input and output, and the clock.
-/

namespace ElementScript

namespace SystemFiles

/-- Whether an error code is the given one; the system gives codes with either sign. -/
def isCode (code expected : UInt32) : Bool := code == expected || code + expected == 0

/-- The reason behind an error of the system. -/
def problemOf : IO.Error → FileProblem
  | .noFileOrDirectory _ _ _ => .notFound
  | .inappropriateType _ code details =>
    if isCode code 20 then .notDirectory
    else if isCode code 21 then .isDirectory
    else .other details
  | .invalidArgument _ code details => if isCode code 36 then .nameTooLong else .other details
  | e => .other (toString e)

/-- The bytes of a file. -/
def read (path : Path) : IO (Except FileProblem ByteArray) := do
  if path.contains '\x00' then return .error .nulInName
  try return .ok (← IO.FS.readBinFile (String.ofList path))
  catch e => return .error (problemOf e)

/-- A directory of the system. -/
def place (path : Path) : IO.FS.DirEntry := ⟨String.ofList path, ""⟩

/-- Whether a path names a directory. -/
def isDirectory (path : Path) : IO Bool := (place path).root.isDir

/-- What an entry of a directory is. An entry whose path is refused is there all the same: it is
looked up under the real path of its directory, and taken for a file if that is refused too. -/
def typeOf (entry : IO.FS.DirEntry) : IO IO.FS.FileType := do
  try return (← entry.path.symlinkMetadata).type
  catch e =>
    if problemOf e != .nameTooLong then throw e
    try
      let real : IO.FS.DirEntry := ⟨← IO.FS.realPath entry.root, entry.fileName⟩
      return (← real.path.symlinkMetadata).type
    catch _ => return .file

/-- The files below a directory, in the order of a walk. Links are not followed, and a directory
that cannot be read is passed over. -/
partial def filesBelow (dir : Path) : IO (List Path) := do
  try
    let entries ← (place dir).root.readDir
    let named := entries.toList.map fun entry => (entry.fileName.toList, entry)
    let sorted := named.mergeSort fun a b => decide (a.1 ≤ b.1)
    let files ← sorted.mapM fun (name, entry) => do
      let path := Path.join dir name
      try
        match ← typeOf entry with
        | .dir => filesBelow path
        | .file => return [path]
        | _ => return []
      catch _ => return []
    return files.flatten
  catch _ => return []

end SystemFiles

/-- The files of the system. -/
def systemFiles : FileAccess IO where
  read := SystemFiles.read
  isDirectory := SystemFiles.isDirectory
  filesBelow := SystemFiles.filesBelow

end ElementScript

open ElementScript in
/-- Run the program on the files of the system. -/
def main (args : List String) : IO UInt32 := do
  let start ← IO.monoNanosNow
  let input := do (← IO.getStdin).readBinToEnd
  let palette : Diagnostic.Palette := if ← (← IO.getStderr).isTty then .terminal else .plain
  let outcome ← runProgramWith palette systemFiles input (args.map String.toList)
  IO.print outcome.output
  let elapsed := (← IO.monoNanosNow) - start
  IO.eprint (outcome.errorText palette elapsed)
  return outcome.code.toUInt32
