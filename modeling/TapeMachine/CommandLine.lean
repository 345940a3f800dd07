import TapeMachine.Catalogue
import TapeMachine.CommandLine.Options
import TapeMachine.Execution.Watch
import TapeMachine.JsonForm
import TapeMachine.Loading
import TapeMachine.Report

/-!
# The command line

Loads a program from the catalogue, from a file or from standard input, runs it on its inputs or on
tapes given as arguments, and reports the runs as text or as JSON. It prints as it goes on, and it
may fail: what was printed before a failure would stay printed.

Without a limit on its moves a run may have no end, and then the command line has none either. Such
a run is left here when it must have come back to where it was before, and what is reported of it
from there on stands for nothing (`execute`).
-/

namespace TapeMachine

namespace CommandLine

/-- Runs a machine on an input, up to a limit of moves if that is not zero. Without a limit, this is
the run to its end for a run that has an end, which are those with an outcome (`Machine.run`). A run
that has none is left after as many steps as any run that ends can take; nothing is stated of it. -/
def execute {σ : Type} (m : Machine) (r : Run) (limit : Nat) (visit : σ → Execution → σ)
    (seen : σ) : σ × Execution :=
  let rounds := if limit = 0 then m.haltBound r.tape + 1 else limit + 1
  m.watch limit visit rounds seen (m.launch r.tape r.head)

/-- What the command line can read. -/
structure Surroundings where
  /-- The bytes of the file at a path. -/
  fileAt : String → Except ReadError ByteArray
  /-- The bytes of standard input, unless that is a terminal. -/
  input : Option ByteArray

/-- Why the command line fails. -/
inductive Failure where
  /-- The arguments are refused. -/
  | misused (e : UsageError)
  | notLoaded (e : LoadError)
  | notInCatalogue (e : Catalogue.Missing)
  | invalidSymbol (e : InvalidSymbol)
  /-- Standard input is no text. -/
  | unreadableInput
  /-- No program is given in any way. -/
  | noProgram

/-- A failure as it is shown: its kind, with the reason in quotes if it has one. -/
def Failure.text : Failure → String
  | misused e => e.message
  | notLoaded (.refused _ (.unexpected _ _)) => "ParseError"
  | notLoaded (.refused _ (.faulty _ _)) => "ParseError"
  | notLoaded (.refused _ e) => "ValidationError(" ++ Text.quote e.reason ++ ")"
  | notLoaded e => "FileError(" ++ Text.quote e.reason ++ ")"
  | notInCatalogue e => "ValidationError(" ++ Text.quote e.message ++ ")"
  | invalidSymbol e => "InvalidSymbol(" ++ Text.quoteChar e.char ++ ")"
  | unreadableInput => "IoError"
  | noProgram =>
    Text.quote "no program given: pass a .tm file, --name, or pipe a definition via stdin"

/-- The program that the options ask for. -/
def programOf (o : Options) (s : Surroundings) : Except Failure Program :=
  match o.name, o.file with
  | some name, _ => (Catalogue.programNamed name).mapError .notInCatalogue
  | none, some path => (Prod.fst <$> loadFile path (s.fileAt path)).mapError .notLoaded
  | none, none =>
    match s.input with
    | none => .error .noProgram
    | some bytes =>
      match String.fromUTF8? bytes with
      | none => .error .unreadableInput
      | some source => (Prod.fst <$> loadText source).mapError .notLoaded

/-- The input of a tape given as an argument. -/
def readRun (head : Int) (text : String) : Except Failure Run := do
  let tape ← (Tape.ofChars text.toList).mapError .invalidSymbol
  return ⟨tape, head⟩

/-- The inputs to run: the tapes given as arguments, or else those of the program. -/
def runsOf (o : Options) (p : Program) : Except Failure (List Run) :=
  if o.inputs = [] then .ok p.runs else o.inputs.mapM (readRun (o.head.getD 0))

/-- The report of a run as JSON. -/
def reportJson (r : Run) (e : Execution) : Json :=
  let begun := [("input", toJson r.tape), ("head", toJson r.head)]
  match e.outcome? with
  | some o => .object (begun ++ [("status", .string "halted"), ("outcome", toJson o)])
  | none => .object (begun ++
      [("status", .string "step_limit"), ("state", toJson e.state), ("tape", toJson e.tape),
        ("head", toJson e.head), ("steps", toJson e.steps)])

/-- The last line about a run. -/
def reportLine (e : Execution) : String :=
  match e.outcome? with
  | some o => Report.summary o
  | none => Report.abandoned e

/-- The lines about a run. -/
def transcript (o : Options) (m : Machine) (r : Run) : List String :=
  let visit (lines : Array String) (e : Execution) : Array String :=
    if o.trace then lines.push (Report.snapshot e) else lines
  let (lines, last) := execute m r (o.maxSteps.getD defaultMaxSteps) visit #[]
  ["", "[EXECUTING TM INPUT: " ++ r.tape.text ++ " ]"] ++ lines.toList ++ [reportLine last]

/-- The report of a run as JSON, as it is at its end. -/
def endReport (o : Options) (m : Machine) (r : Run) : Json :=
  reportJson r (execute m r (o.maxSteps.getD defaultMaxSteps) (fun u _ ↦ u) ()).2

/-- The report of all runs. -/
def report (o : Options) (m : Machine) (runs : List Run) : String :=
  if o.json then Text.closed [(Json.list (endReport o m) runs).pretty]
  else
    Text.closed ((if o.config then Report.configuration m else []) ++
      runs.flatMap (transcript o m))

/-- The programs of the catalogue with their numbers, a line each. -/
def listing : List String :=
  Catalogue.names.zipIdx.map fun n ↦ Text.natural n.2 ++ ": " ++ n.1

/-- What the command line has done: the text it has printed, and the inputs it has run. -/
structure Progress where
  printed : String
  executed : List Run

namespace Progress

/-- Nothing is done yet. -/
def none : Progress := ⟨"", []⟩

/-- Lines are printed. -/
def print (p : Progress) (lines : List String) : Progress :=
  { p with printed := p.printed ++ Text.closed lines }

/-- A run is begun. -/
def run (p : Progress) (r : Run) : Progress := { p with executed := p.executed ++ [r] }

end Progress

/-- Work of the command line, which may fail. What is done before it fails stays done. -/
abbrev Work := ExceptT Failure (StateM Progress)

/-- Work that comes to a result or fails, and does nothing else. -/
def Work.ofExcept {α : Type} (result : Except Failure α) : Work α := ExceptT.mk (pure result)

/-- Work that prints lines. -/
def Work.print (lines : List String) : Work Unit := modify (·.print lines)

/-- Work that prints lines for people to read, which is not done if the report is to be JSON. -/
def Work.say (o : Options) (lines : List String) : Work Unit :=
  if o.json then pure () else print lines

/-- Runs a machine on an input. The run is shown as it goes on if the options ask for it. -/
def conduct (o : Options) (m : Machine) (r : Run) : Work Execution :=
  let visit (p : Progress) (e : Execution) : Progress :=
    if o.trace && !o.json then p.print [Report.snapshot e] else p
  modifyGet fun p ↦
    let (p, last) := execute m r (o.maxSteps.getD defaultMaxSteps) visit (p.run r)
    (last, p)

/-- Runs a machine on an input with what there is to say about it. -/
def performRun (o : Options) (m : Machine) (r : Run) : Work Json := do
  Work.say o ["", "[EXECUTING TM INPUT: " ++ r.tape.text ++ " ]"]
  let last ← conduct o m r
  Work.say o [reportLine last]
  return reportJson r last

/-- Runs a machine on all inputs, with what there is to say about the machine before, or with all
reports as JSON behind. -/
def performRuns (o : Options) (m : Machine) (runs : List Run) : Work Unit := do
  Work.say o (if o.config then Report.configuration m else [])
  let reports ← runs.mapM (performRun o m)
  if o.json then Work.print [(Json.array reports).pretty] else pure ()

/-- Does what the options ask for. -/
def perform (o : Options) (s : Surroundings) : Work Unit := do
  if o.list then Work.print listing
  else
    let p ← Work.ofExcept (programOf o s)
    let runs ← Work.ofExcept (runsOf o p)
    performRuns o p.machine runs

/-- Does what the arguments ask for, unless they are refused. -/
def command (args : List String) (s : Surroundings) : Work Unit := do
  let o ← Work.ofExcept ((Options.ofArguments args).mapError .misused)
  perform o s

/-- The exit code after a failure. -/
def Failure.exit : Failure → Nat
  | misused _ => 2
  | _ => 1

/-- The end of a command: the exit code, what was printed, the failure if it failed, and the inputs
that were run. -/
structure Result where
  exit : Nat
  output : String
  failure : Option Failure
  executed : List Run

/-- What the command line does with its arguments, if each run that it makes has a limit or an end
(`execute`). -/
def respond (args : List String) (s : Surroundings) : Result :=
  let (ended, p) := (command args s).run.run Progress.none
  match ended with
  | .ok () => ⟨0, p.printed, none, p.executed⟩
  | .error failure => ⟨failure.exit, p.printed, some failure, p.executed⟩

end CommandLine

end TapeMachine
