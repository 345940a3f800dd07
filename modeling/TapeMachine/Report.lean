import TapeMachine.Execution
import TapeMachine.Text.Lines

/-!
# Reports

The texts in which people read a machine, a run under way and the end of a run.
-/

namespace TapeMachine.Report

/-- The line above and below a heading. -/
def rule : String := "-------------------------------------------------"

/-- The lines about a machine: its states, its alphabet and its rules, one line each. -/
def configuration (m : Machine) : List String :=
  [rule, "Turing Machine Configuration", rule,
    "Number of States: " ++ Text.natural m.numStates,
    (List.range m.numStates).foldl (fun acc i ↦ acc ++ " " ++ State.text ⟨i⟩) "The States:",
    "Start State: " ++ m.start.text,
    m.alphabet.toList.foldl (fun acc s ↦ acc ++ " " ++ s.text) "Alphabet:",
    "Transition Function:"] ++
  m.table.rules.map (fun r ↦
    "(" ++ r.trigger.state.text ++ " , " ++ r.trigger.symbol.text ++ ") , " ++ r.transition.text) ++
  [rule]

/-- A machine in words. -/
def configurationText (m : Machine) : String := Text.join "\n" (configuration m)

/-- The state, the tape and the head of a run under way. -/
def snapshot (e : Execution) : String :=
  "Current State: " ++ e.state.text ++ ", Tape: " ++ e.tape.text ++
    ", Head Position: " ++ Text.integer e.head

/-- Where a run stands that was given up after its last permitted move. -/
def abandoned (e : Execution) : String :=
  "[HANG >> No halt after " ++ Text.natural e.steps ++ " steps] State: " ++ e.state.text ++
    ", Tape: " ++ e.tape.text ++ ", Head Position: " ++ Text.integer e.head

/-- How and where a run ended. -/
def summary (o : Outcome) : String :=
  "[" ++ o.halt.text ++ "] State: " ++ o.state.text ++ ", Tape: " ++ o.tape.text ++
    ", Head Position: " ++ Text.integer o.head ++ ", Steps: " ++ Text.natural o.steps

end TapeMachine.Report
