import TapeMachine.Definition

/-!
# Written definitions

A program as a definition file: every section in its usual place, every symbol in quotes, every rule
and every input on a line of its own. An empty alphabet is left out, because the grammar has no way
to declare one.
-/

namespace TapeMachine.Definition

/-- A state as it is written. -/
def writtenState (q : State) : List Char := 'q' :: Text.digits q.index

/-- A symbol as it is written, in quotes. -/
def writtenSymbol (s : Symbol) : List Char := ['\'', s.char, '\'']

/-- A head position as it is written. -/
def writtenPosition : Int → List Char
  | .ofNat n => Text.digits n
  | .negSucc n => '-' :: Text.digits (n + 1)

/-- A mode as it is written. -/
def writtenMode : Mode → List Char
  | .normal => "normal".toList
  | .strict => "strict".toList

/-- The symbols of an alphabet with commas between them. -/
def writtenSymbols : List Symbol → List Char
  | [] => []
  | s :: rest => writtenSymbol s ++ rest.flatMap fun t ↦ ", ".toList ++ writtenSymbol t

/-- A rule as it is written. -/
def writtenRule (r : Rule) : List Char :=
  List.flatten ["(".toList, writtenState r.trigger.state, ", ".toList,
    writtenSymbol r.trigger.symbol, ") -> (".toList, writtenState r.transition.next, ", ".toList,
    writtenSymbol r.transition.write, ", ".toList, [r.transition.action.code], ")".toList]

/-- An input as it is written. -/
def writtenRun (r : Run) : List Char :=
  "\"".toList ++ (r.tape.toList.map Symbol.char ++ ("\" @ ".toList ++ writtenPosition r.head))

/-- What a section says. -/
inductive Statement where
  | name (name : String)
  | mode (mode : Mode)
  | states (count : Nat)
  | start (state : State)
  | alphabet (symbols : List Symbol)
  | transitions (rules : List Rule)
  | runs (runs : List Run)
  deriving DecidableEq

/-- The kind of the section that says it. -/
def Statement.kind : Statement → SectionKind
  | name _ => .name
  | mode _ => .mode
  | states _ => .states
  | start _ => .start
  | alphabet _ => .alphabet
  | transitions _ => .transitions
  | runs _ => .runs

/-- The section that says it, without the line break at its end. -/
def Statement.written : Statement → List Char
  | name n => "name: ".toList ++ n.toList
  | mode m => "mode: ".toList ++ writtenMode m
  | states n => "states: ".toList ++ Text.digits n
  | start q => "start: ".toList ++ writtenState q
  | alphabet symbols => "alphabet: ".toList ++ writtenSymbols symbols
  | transitions rules => "transitions:".toList ++ rules.flatMap fun r ↦ '\n' :: writtenRule r
  | runs rs => "runs:".toList ++ rs.flatMap fun r ↦ '\n' :: writtenRun r

/-- What the alphabet section says, if the grammar has a way to say it. -/
def alphabetStatements : List Symbol → List Statement
  | [] => []
  | symbols => [.alphabet symbols]

/-- What the sections of the definition file of a program say. -/
def statementsOf (p : Program) : List Statement :=
  [.name p.name, .mode p.mode, .states p.machine.numStates, .start p.machine.start] ++
    alphabetStatements p.machine.alphabet.toList ++
    [.transitions p.machine.table.rules, .runs p.runs]

/-- The definition file of a program. -/
def written (p : Program) : String :=
  String.ofList ((statementsOf p).flatMap fun s ↦ s.written ++ ['\n'])

end TapeMachine.Definition
