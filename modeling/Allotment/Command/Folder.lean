namespace Allotment.Command

/-!
# Files and paths

A folder holds files under paths of its own.  `Folder.load` follows a path that starts in the
folder, name by name: a name before a slash must be a folder, `.` stays where it is and `..` goes to
the folder around it.  What lies around the folder itself holds nothing that can be loaded, but for
the null device.

* `LoadError` — why a file could not be loaded, with its message;
* `Folder.load` — the content of the file at a path.
-/

/-- Why a file could not be loaded. -/
inductive LoadError where
  | missing
  | denied
  | badPath
  | longName
  | notFolder
  | folder
deriving DecidableEq

/-- The message of a file that could not be loaded. -/
def LoadError.message (path : String) : LoadError → String
  | .missing => "open " ++ path ++ ": no such file or directory"
  | .denied => "open " ++ path ++ ": permission denied"
  | .badPath => "open " ++ path ++ ": invalid argument"
  | .longName => "open " ++ path ++ ": file name too long"
  | .notFolder => "open " ++ path ++ ": not a directory"
  | .folder => "read " ++ path ++ ": is a directory"

/-- Files with the names that lead to each of them. -/
structure Folder where
  files : List (List String × String)

namespace Folder

/-- The folder with files of the given paths. -/
def ofFiles (files : List (String × String)) : Folder :=
  ⟨files.map fun f => (f.1.splitOn "/", f.2)⟩

/-- Where a path has led so far: to a folder inside, to what lies around, or to a file. -/
inductive Place where
  | inside (names : List String)
  | around
  | file (content : String)

/-- The greatest number of bytes in one name. -/
def nameLimit : Nat := 255

/-- The greatest number of bytes in a path. -/
def pathLimit : Nat := 4095

/-- What a name stands for in a folder inside. -/
def enter (f : Folder) (names : List String) : Except LoadError Place :=
  match f.files.lookup names with
  | some content => .ok (.file content)
  | none => if f.files.any fun p => names.isPrefixOf p.1 then .ok (.inside names)
      else .error .missing

/-- Follows one name of a path. -/
def follow (f : Folder) (place : Place) (name : String) : Except LoadError Place :=
  match place with
  | .file _ => .error .notFolder
  | .around =>
    if name == "" || name == "." || name == ".." then .ok .around
    else .error (if nameLimit < name.utf8ByteSize then .longName else .missing)
  | .inside names =>
    if name == "" || name == "." then .ok (.inside names)
    else if name == ".." then .ok (if names.isEmpty then .around else .inside names.dropLast)
    else if nameLimit < name.utf8ByteSize then .error .longName
    else f.enter (names ++ [name])

/-- The file that is always empty. -/
def nullDevice : String := "/dev/null"

/-- The content of the file at a path.  A path that starts with a slash starts outside, and none has
    a null character. -/
def load (f : Folder) (path : String) : Except LoadError String := do
  if path.isEmpty then throw .missing
  if path.contains '\x00' then throw .badPath
  if path == nullDevice then return ""
  if pathLimit < path.utf8ByteSize then throw .longName
  let start : Place := if path.startsWith "/" then .around else .inside []
  match ← (path.splitOn "/").foldlM f.follow start with
  | .file content => pure content
  | _ => throw .folder

end Folder

end Allotment.Command
