/-!
# Folders

What can be read by name: files with their bytes, and folders with their entries. A path names an
entry by the names on the way to it, with slashes between them. Names are texts here: a folder that
has an entry whose name is no UTF-8 is none of these.
-/

namespace TapeMachine

/-- What a name stands for. -/
inductive Entry where
  | file (bytes : ByteArray)
  | folder (entries : List (String × Entry))

/-- Why something cannot be read. -/
inductive ReadError where
  | notFound
  | isFolder
  | notAFolder
  | denied
  | nameTooLong
  | nulInName
  | notText
  /-- A cause that has no name here. -/
  | other (cause : String)
  deriving DecidableEq, Repr

/-- The cause in words. -/
def ReadError.message : ReadError → String
  | notFound => "No such file or directory (os error 2)"
  | isFolder => "Is a directory (os error 21)"
  | notAFolder => "Not a directory (os error 20)"
  | denied => "Permission denied (os error 13)"
  | nameTooLong => "File name too long (os error 36)"
  | nulInName => "file name contained an unexpected NUL byte"
  | notText => "stream did not contain valid UTF-8"
  | other cause => cause

namespace Entry

/-- The greatest size of a name in bytes. -/
def maxNameSize : Nat := 255

/-- A path must have fewer bytes than this. -/
def maxPathSize : Nat := 4096

/-- The names in a path. -/
def namesOf (path : String) : List String := path.splitOn "/"

/-- The path that `path` is when it is read in the folder at `folder`: a path that begins with a
slash is read as it stands. -/
def pathFrom (folder path : String) : String :=
  if path.toList.head? = some '/' then path
  else
    match folder.toList.getLast? with
    | none | some '/' => folder ++ path
    | some _ => folder ++ "/" ++ path

/-- The entry that names lead to from `e`, which lies in the folders `above`, the innermost first.
Empty names and single dots stay where they are, and two dots lead to the folder above, which for
the outermost folder is itself. -/
def followFrom (above : List Entry) (e : Entry) : List String → Except ReadError Entry
  | [] => .ok e
  | name :: rest =>
    match e with
    | file _ => .error .notAFolder
    | folder entries =>
      if name = "" ∨ name = "." then followFrom above (folder entries) rest
      else if name = ".." then
        match above with
        | [] => followFrom [] (folder entries) rest
        | outer :: above => followFrom above outer rest
      else
        match entries.lookup name with
        | none => .error (if maxNameSize < name.utf8ByteSize then .nameTooLong else .notFound)
        | some inner => followFrom (folder entries :: above) inner rest

/-- The entry that a path leads to, from the folder that the names `current` lead to in the
outermost folder `root`. -/
def resolve (root : Entry) (current : List String) (path : String) : Except ReadError Entry :=
  if '\x00' ∈ path.toList then .error .nulInName
  else if path = "" then .error .notFound
  else if maxPathSize ≤ path.utf8ByteSize then .error .nameTooLong
  else
    let start := if path.toList.head? = some '/' then [] else current
    followFrom [] root (start ++ namesOf path)

/-- The bytes of a file. -/
def bytes : Entry → Except ReadError ByteArray
  | file content => .ok content
  | folder _ => .error .isFolder

/-- The entries of a folder. -/
def list : Entry → Except ReadError (List (String × Entry))
  | file _ => .error .notAFolder
  | folder entries => .ok entries

end Entry

end TapeMachine
