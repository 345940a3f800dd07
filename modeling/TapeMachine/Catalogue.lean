import TapeMachine.Definition

/-!
# The catalogue

The programs that come with the library, by number and by name.
-/

namespace TapeMachine.Catalogue

/-- The definition of a machine that accepts inputs with an even number of a's. -/
def evenAs : String := Text.closed
  ["// Accepts inputs that contain an even number of a's.",
    "// The input is terminated by '#'.",
    "name: Even number of a's",
    "states: 2",
    "start: q0",
    "alphabet: a, b, #",
    "transitions:",
    "  (q0, a) -> (q1, a, R)",
    "  (q0, b) -> (q0, b, R)",
    "  (q0, #) -> (q0, #, Y)",
    "  (q1, a) -> (q0, a, R)",
    "  (q1, b) -> (q1, b, R)",
    "  (q1, #) -> (q1, #, N)",
    "runs:",
    "  \"ab#\" @ 0",
    "  \"aabaa#\" @ 0",
    "  \"#\" @ 0",
    "  \"bbbbbb#\" @ 0",
    "  \"aaabaaaabbbb#\" @ 0"]

/-- The definition of a machine that erases its input up to the first `#`. -/
def eraser : String := Text.closed
  ["// Erases the tape up to the first '#' and stops there.",
    "name: Eraser",
    "states: 1",
    "start: q0",
    "alphabet: a, b, #",
    "transitions:",
    "  (q0, a) -> (q0, #, R)",
    "  (q0, b) -> (q0, #, R)",
    "  (q0, #) -> (q0, #, Y)",
    "runs:",
    "  \"ab#\" @ 0",
    "  \"aabaa#\" @ 0",
    "  \"#\" @ 0",
    "  \"bbbbbb#\" @ 0",
    "  \"aaaaa#\" @ 0",
    "  \"aa#\" @ 0",
    "  // 'c' is not in the alphabet, so the machine has no move for it.",
    "  \"abcc#\" @ 0"]

/-- The definition of a machine that goes left to a mark and stops behind it. -/
def parkHead : String := Text.closed
  ["// Parks the head one cell after the left mark '<'.",
    "//",
    "//   < a b a a b #",
    "//     ^",
    "name: Park head",
    "states: 2",
    "start: q0",
    "alphabet: a, b, #, <",
    "transitions:",
    "  (q0, a) -> (q0, a, L)",
    "  (q0, b) -> (q0, b, L)",
    "  (q0, #) -> (q0, #, L)",
    "  (q0, <) -> (q1, <, R)",
    "  (q1, a) -> (q1, a, Y)",
    "  (q1, b) -> (q1, b, Y)",
    "  (q1, #) -> (q1, #, Y)",
    "  (q1, <) -> (q1, <, N)",
    "runs:",
    "  \"<ababab#\" @ 4",
    "  \"aa<ababab#\" @ 6",
    "  // No left mark: the head walks off the tape.",
    "  \"bbbbababab#\" @ 8"]

/-- The definition of a machine that turns a's into b's while it goes back and forth. -/
def rewriteA : String := Text.closed
  ["// Turns the second a of each \"aa\" pair into b and walks back over the b's.",
    "name: Rewrite a's",
    "states: 2",
    "start: q0",
    "alphabet: a, b, #",
    "transitions:",
    "  (q0, a) -> (q1, a, R)",
    "  (q0, b) -> (q0, b, R)",
    "  (q0, #) -> (q0, #, N)",
    "  (q1, a) -> (q0, b, L)",
    "  (q1, b) -> (q1, b, L)",
    "  (q1, #) -> (q1, #, Y)",
    "runs:",
    "  \"a#\" @ 0",
    "  \"b#\" @ 0"]

/-- The definitions of the programs. -/
def sources : List String := [evenAs, eraser, parkHead, rewriteA]

/-- A program with its definition. -/
structure Entry where
  source : String
  program : Program

/-- The entry of a definition, if it is accepted. -/
def Entry.ofSource? (source : String) : Option Entry :=
  match Definition.parse source with
  | .ok (program, _) => some ⟨source, program⟩
  | .error _ => none

/-- The programs with their definitions, in order. -/
def entries : List Entry := sources.filterMap Entry.ofSource?

/-- What is not in the catalogue. -/
inductive Missing where
  /-- A program of this number. -/
  | program (index : Nat)
  /-- A definition of this number. -/
  | source (index : Nat)
  /-- A program of this name. -/
  | name (s : String)
  deriving DecidableEq, Repr

/-- What is missing, in words. -/
def Missing.message : Missing → String
  | program index => "Program index " ++ Text.natural index ++ " out of range"
  | source index => "Program text index " ++ Text.natural index ++ " out of range"
  | name s => "Program '" ++ s ++ "' not found"

/-- The program of a number. -/
def programAt (index : Nat) : Except Missing Program :=
  entries[index]?.elim (.error (.program index)) fun e ↦ .ok e.program

/-- The definition of a number. -/
def sourceAt (index : Nat) : Except Missing String :=
  entries[index]?.elim (.error (.source index)) fun e ↦ .ok e.source

/-- Names are equal but for the case of their ASCII letters. -/
def sameName (a b : String) : Bool := a.toList.map Char.toLower = b.toList.map Char.toLower

/-- The first program of a name, in any case of its letters. -/
def programNamed (name : String) : Except Missing Program :=
  (entries.find? fun e ↦ sameName e.program.name name).elim (.error (.name name)) fun e ↦
    .ok e.program

/-- The names of the programs, in order. -/
def names : List String := entries.map fun e ↦ e.program.name

/-- A character in lower case, as far as that can be an ASCII letter: the capital ASCII letters and
the Kelvin sign change. The names in the catalogue are of ASCII characters, so nothing else can make
a query match. -/
def lowerCase (c : Char) : Char := if c = '\u212a' then 'k' else c.toLower

/-- The numbers of the programs whose name holds a text, in any case of its letters. -/
def search (query : String) : List Nat :=
  let wanted := query.toList.map lowerCase
  (names.zipIdx.filter fun n ↦ Text.occursIn wanted (n.1.toList.map lowerCase)).map Prod.snd

end TapeMachine.Catalogue
