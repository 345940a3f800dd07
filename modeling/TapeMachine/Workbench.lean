import TapeMachine.Catalogue
import TapeMachine.Definition.Excerpt
import TapeMachine.Execution.Budget
import TapeMachine.Report

/-!
# The workbench

A session at the keyboard with one program: its inputs are run step by step, by themselves, or to
their end, under a limit of moves. A session on the catalogue can go from program to program; a
session on a definition of its own stays with it.
-/

namespace TapeMachine

/-- A session at the keyboard. -/
structure Workbench where
  program : Program
  /-- The definition of the program, as it is shown. -/
  source : String
  /-- The definition is not from the catalogue. -/
  isCustom : Bool
  programIndex : Nat
  runIndex : Nat
  execution : Execution
  /-- The greatest number of moves of a run; zero is no limit. -/
  maxSteps : Nat
  autoPlay : Bool
  message : String
  showHelp : Bool
  showConfiguration : Bool

/-- What a key asks for. -/
inductive Command where
  | quit
  | reset
  | step
  | finish
  | toggleAutoPlay
  | toggleConfiguration
  | toggleHelp
  | nextRun
  | previousProgram
  | nextProgram
  deriving DecidableEq, Repr

/-- A key. -/
inductive Key where
  | char (c : Char)
  | enter
  | left
  | right
  /-- A key without a character that asks for nothing. -/
  | other
  deriving DecidableEq, Repr

/-- What a key asks for, if anything. -/
def Key.command? : Key → Option Command
  | char 'q' => some .quit
  | char 'r' => some .reset
  | char ' ' => some .step
  | char 'p' => some .toggleAutoPlay
  | char 'c' => some .toggleConfiguration
  | char 'h' => some .toggleHelp
  | char 'n' => some .nextRun
  | char _ => none
  | enter => some .finish
  | left => some .previousProgram
  | right => some .nextProgram
  | other => none

/-- The execution of an input of a program, by its number; without inputs, of an empty tape. -/
def Program.launch (p : Program) (index : Nat) : Execution :=
  match p.runs[index]? with
  | some r => p.machine.launch r.tape r.head
  | none => p.machine.launch Tape.empty 0

namespace Workbench

/-- A session that is about to begin. -/
def launch (program : Program) (source : String) (isCustom : Bool) (maxSteps : Nat)
    (message : String) : Workbench where
  program
  source
  isCustom
  programIndex := 0
  runIndex := 0
  execution := program.launch 0
  maxSteps
  autoPlay := false
  message
  showHelp := false
  showConfiguration := false

/-- A session on the catalogue, which begins with its first program. -/
def ofCatalogue (maxSteps : Nat) : Except Catalogue.Missing Workbench := do
  let program ← Catalogue.programAt 0
  let source ← Catalogue.sourceAt 0
  return launch program source false maxSteps "Press 'h' for help."

/-- A session on a definition. -/
def ofSource (source : String) (maxSteps : Nat) : Except Definition.Error Workbench := do
  let (program, _) ← Definition.parse source
  return launch program source true maxSteps "Program loaded from source. Press 'h' for help."

/-- What is said if a definition is refused. -/
def refusal (source : String) (e : Definition.Error) : String :=
  "Failed to load program: " ++ e.message source

/-- The limit of moves, if there is one. -/
def limit? (w : Workbench) : Option Nat := if w.maxSteps = 0 then none else some w.maxSteps

/-- The run has used up its moves, and its next step would be a move. -/
def isAtLimit (w : Workbench) : Bool :=
  match w.limit? with
  | some limit => limit ≤ w.execution.steps && w.program.machine.movesNext w.execution
  | none => false

/-- The run goes on by itself. -/
def isAutoPlaying (w : Workbench) : Bool := w.autoPlay && !w.execution.isHalted

/-- What is said when the limit is reached. -/
def limitMessage (limit : Nat) : String :=
  "No halt after " ++ Text.natural limit ++ " steps. Press 'r' to reset."

/-- The session after its run has come to an end. -/
def atEnd (w : Workbench) (e : Execution) : Workbench :=
  let message := match e.outcome? with
    | some o => Report.summary o
    | none => "Machine is halted. Press 'r' to reset."
  { w with execution := e, message, autoPlay := false }

/-- One step of the run, unless it is at its limit. -/
def stepOnce (w : Workbench) : Workbench :=
  if w.isAtLimit then { w with message := limitMessage w.maxSteps, autoPlay := false }
  else
    let next := w.program.machine.step w.execution
    if next.isHalted then w.atEnd next
    else { w with execution := next, message := "Step " ++ Text.natural next.steps ++ " completed" }

/-- The run to its end or its limit; without a limit, for `defaultMaxSteps` moves. -/
def finish (w : Workbench) : Workbench :=
  let budget := match w.limit? with
    | some limit => limit - w.execution.steps
    | none => defaultMaxSteps
  let last := w.program.machine.runBounded budget w.execution
  if last.isHalted then w.atEnd last
  else
    let message := match w.limit? with
      | some limit => limitMessage limit
      | none =>
        "Still running after " ++ Text.natural last.steps ++ " steps. Press Enter to continue."
    { w with execution := last, message, autoPlay := false }

/-- The current input from its beginning. -/
def reset (w : Workbench) : Workbench :=
  { w with
    execution := w.program.launch w.runIndex
    message := "Machine reset"
    autoPlay := false }

/-- The next input of the program; after the last comes the first. -/
def nextRun (w : Workbench) : Workbench :=
  let count := w.program.runs.length
  if count = 0 then { w with message := "Program declares no runs." }
  else
    let index := (w.runIndex + 1) % count
    { w with
      runIndex := index
      execution := w.program.launch index
      autoPlay := false
      message := "Run " ++ Text.natural (index + 1) ++ "/" ++ Text.natural count }

/-- Turns on or off that the run goes on by itself. -/
def toggleAutoPlay (w : Workbench) : Workbench :=
  { w with
    autoPlay := !w.autoPlay
    message := "Auto-play " ++ if w.autoPlay then "disabled" else "enabled" }

/-- The session with a program of the catalogue, from the beginning of its first input, or with word
of what is missing. -/
def showLoaded (w : Workbench) (index : Nat) :
    Except Catalogue.Missing (Program × String) → Workbench
  | .ok (program, source) =>
    { w with
      message := "Loaded program: " ++ program.name
      execution := program.launch 0
      program
      source
      programIndex := index
      runIndex := 0
      autoPlay := false }
  | .error e => { w with message := "Program validation error: " ++ e.message }

/-- The program of a number in the catalogue, from the beginning of its first input. -/
def showProgram (w : Workbench) (index : Nat) : Workbench :=
  w.showLoaded index do
    let program ← Catalogue.programAt index
    let source ← Catalogue.sourceAt index
    return (program, source)

/-- Another program of the catalogue, whose number follows from the number of the present one and
the number of all; a session on a definition of its own stays with it. -/
def switchProgram (w : Workbench) (target : Nat → Nat → Nat) : Workbench :=
  if w.isCustom then
    { w with message := "Cannot switch programs when loaded from file/stdin." }
  else
    let count := Catalogue.entries.length
    if count = 0 then w else w.showProgram (target w.programIndex count)

/-- The next program; after the last comes the first. -/
def nextProgram (w : Workbench) : Workbench :=
  w.switchProgram fun index count ↦ (index + 1) % count

/-- The program before; before the first comes the last. -/
def previousProgram (w : Workbench) : Workbench :=
  w.switchProgram fun index count ↦ if index = 0 then count - 1 else index - 1

/-- The session after a command, unless it ends the session. -/
def obey (w : Workbench) : Command → Option Workbench
  | .quit => none
  | .reset => some w.reset
  | .step => some w.stepOnce
  | .finish => some w.finish
  | .toggleAutoPlay => some w.toggleAutoPlay
  | .toggleConfiguration => some { w with showConfiguration := !w.showConfiguration }
  | .toggleHelp => some { w with showHelp := !w.showHelp }
  | .nextRun => some w.nextRun
  | .previousProgram => some w.previousProgram
  | .nextProgram => some w.nextProgram

/-- The session after a key, unless the key ends the session. -/
def press (w : Workbench) (k : Key) : Option Workbench :=
  match k.command? with
  | none => some w
  | some c => w.obey c

/-- The session after some time without a key. -/
def tick (w : Workbench) : Workbench := if w.isAutoPlaying then w.stepOnce else w

end Workbench

end TapeMachine
