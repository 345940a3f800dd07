import TapeMachine.Definition.Excerpt
import TapeMachine.Definition
import TapeMachine.Folder

/-!
# Loading programs from files

A definition file is a text of limited size. All definition files of a folder are loaded at once:
the programs come first, in the order of their file names, and the errors of the other files after
them, so that the order in which a folder lists its entries does not matter for the programs. This
is said of folders whose entries have names that are UTF-8 (`Entry`).
-/

namespace TapeMachine

/-- The greatest size of a definition file in bytes. -/
def maxFileSize : Nat := 65536

/-- Why a program is not loaded. -/
inductive LoadError where
  /-- The file cannot be read. -/
  | unreadable (path : String) (cause : ReadError)
  /-- The file is too large. -/
  | tooLarge (path : String)
  /-- The folder is not there. -/
  | noFolder (path : String)
  /-- The folder cannot be listed. -/
  | unlistable (path : String) (cause : ReadError)
  /-- The definition in the file is refused. -/
  | refused (source : String) (error : Definition.Error)
  /-- A file of a folder is not loaded. -/
  | inFolder (path : String) (cause : LoadError)

/-- The program in a definition, with the warnings about it. -/
def loadText (source : String) : Except LoadError (Program × List Definition.Warning) :=
  (Definition.parse source).mapError (.refused source)

/-- The program in a file with this content. -/
def loadFile (path : String) (content : Except ReadError ByteArray) :
    Except LoadError (Program × List Definition.Warning) := do
  let bytes ← content.mapError (.unreadable path)
  match String.fromUTF8? bytes with
  | none => throw (.unreadable path .notText)
  | some source =>
    if maxFileSize < bytes.size then throw (.tooLarge path)
    else loadText source

/-- The name of a definition file: it ends in `.tm`, and something stands before that. -/
def isDefinitionName (name : String) : Bool :=
  match name.toList.reverse with
  | 'm' :: 't' :: '.' :: _ :: _ => true
  | _ => false

/-- The definition file that an entry of a folder is, if it is one: folders and files of other names
are passed over. -/
def definitionFile : String × Entry → Option (String × ByteArray)
  | (_, .folder _) => none
  | (name, .file bytes) => if isDefinitionName name then some (name, bytes) else none

/-- What loading gives: a program with a name, or an error. -/
abbrev Loaded := Except LoadError (String × Program)

/-- What a definition file in the folder at `path` gives. The program has the name of the file. -/
def loadNamed (path : String) (file : String × ByteArray) : Loaded :=
  let path := Entry.pathFrom path file.1
  match loadFile path (.ok file.2) with
  | .ok (program, _) => .ok (file.1, program)
  | .error cause => .error (.inFolder path cause)

/-- Whether a result may stand before another: programs stand in the order of their names and before
the errors, which are all alike. -/
def Loaded.mayPrecede : Loaded → Loaded → Bool
  | .ok a, .ok b => a.1 ≤ b.1
  | .ok _, .error _ => true
  | .error _, .ok _ => false
  | .error _, .error _ => true

/-- What the entries of the folder at `path` give, in order. -/
def loadEntries (path : String) (entries : List (String × Entry)) : List Loaded :=
  ((entries.filterMap definitionFile).map (loadNamed path)).mergeSort Loaded.mayPrecede

/-- What the folder at `path` gives: first all programs by their paths, then the errors of the other
definition files. -/
def loadAll (path : String) (entry : Except ReadError Entry) : List Loaded :=
  match entry with
  | .error _ => [.error (.noFolder path)]
  | .ok e =>
    match e.list with
    | .error cause => [.error (.unlistable path cause)]
    | .ok entries =>
      (loadEntries path entries).map (·.map fun p ↦ (Entry.pathFrom path p.1, p.2))

/-- The programs among results. -/
def programsIn (results : List Loaded) : List (String × Program) :=
  results.filterMap Except.toOption

/-- The errors among results. -/
def errorsIn (results : List Loaded) : List LoadError :=
  results.filterMap fun
    | .ok _ => none
    | .error e => some e

/-- The programs that the folder at `path` gives, and the errors. -/
def loadFolder (path : String) (entry : Except ReadError Entry) :
    List (String × Program) × List LoadError :=
  let results := loadAll path entry
  (programsIn results, errorsIn results)

namespace LoadError

/-- The error in words with its kind before the reason. -/
def withKind (reason : String) : LoadError → String
  | refused source error => error.message source
  | _ => "File error: " ++ reason

/-- The error in words, without its kind. -/
def reason : LoadError → String
  | unreadable path cause => "Failed to read file " ++ path ++ ": " ++ cause.message
  | tooLarge path =>
    "File " ++ path ++ " is larger than " ++ Text.natural maxFileSize ++ " bytes"
  | noFolder path => "Directory " ++ path ++ " does not exist"
  | unlistable path cause => "Failed to read directory " ++ path ++ ": " ++ cause.message
  | refused _ error => error.reason
  | inFolder path cause =>
    "Failed to load program from " ++ path ++ ": " ++ cause.withKind (reason cause)

/-- The error in words. -/
def message (e : LoadError) : String := e.withKind e.reason

end LoadError

end TapeMachine
