import TapeMachine.Execution

/-!
# Runs under a budget and runs to the end

A budget bounds the moves of a run. When it is used up, the run still takes a step that would halt
without moving, so a machine that halts right on its budget shows its halt.
-/

namespace TapeMachine

/-- The number of moves after which a run is given up if nothing else is asked for. -/
def defaultMaxSteps : Nat := 10000

namespace Machine

/-- Steps until the run halts or has made `moves` further moves; then one more step is taken if it
makes no move. What is returned is what the last step returned, or that the run can go on. -/
def turns (m : Machine) : Nat → Execution → Step × Execution
  | 0, e =>
    if m.movesNext e then (.proceed, e)
    else
      let last := m.turn e
      (last.returned, last.execution)
  | moves + 1, e =>
    match m.turn e with
    | ⟨.halt halt, last, _⟩ => (.halt halt, last)
    | ⟨.proceed, next, _⟩ => turns m moves next

/-- Where a run for a number of moves leaves the execution. -/
def runFor (m : Machine) (moves : Nat) (e : Execution) : Execution := (m.turns moves e).2

/-- Steps until the run halts or has used up its budget. The count of moves never exceeds
`maxCount`. -/
def turnsWithin (m : Machine) (budget : Nat) (e : Execution) : Step × Execution :=
  m.turns (min (e.steps + budget) maxCount - e.steps) e

/-- Where a run under a budget leaves the execution. -/
def runBounded (m : Machine) (budget : Nat) (e : Execution) : Execution :=
  m.runFor (min (e.steps + budget) maxCount - e.steps) e

/-- A number of moves after which a run on this tape must have come back to a situation it has been
in before: there are at most one more states than rules, and as many symbols for each cell. -/
def haltBound (m : Machine) (tape : Tape) : Nat :=
  let choices := m.table.size + 1
  choices * tape.size * choices.pow tape.size

/-- The outcome of a run to its end, if it has one. -/
def run (m : Machine) (tape : Tape) (head : Int) : Option Outcome :=
  (m.runFor (m.haltBound tape) (m.launch tape head)).outcome?

/-- A run that may make no further move takes the next step if that makes none. -/
theorem runFor_zero (m : Machine) (e : Execution) :
    m.runFor 0 e = if m.movesNext e then e else m.step e := by
  rw [runFor, turns]
  split <;> rfl

/-- A run that may make a further move takes the next step. -/
theorem turns_succ (m : Machine) (moves : Nat) (e : Execution) :
    m.turns (moves + 1) e =
      if (m.step e).isHalted then (.ofHalt? (m.step e).halt, m.step e)
      else m.turns moves (m.step e) := by
  have hreturned := m.returned_turn e
  rw [step] at hreturned
  rw [turns, step, Execution.isHalted]
  generalize m.turn e = t at hreturned ⊢
  obtain ⟨returned, ⟨_, _, _, _, halt⟩, _⟩ := t
  cases halt <;> cases hreturned <;> rfl

theorem runFor_succ (m : Machine) (moves : Nat) (e : Execution) :
    m.runFor (moves + 1) e =
      if (m.step e).isHalted then m.step e else m.runFor moves (m.step e) := by
  rw [runFor, turns_succ]
  split <;> rfl

/-- A run for a number of moves returns the halt of the execution that it leaves. -/
theorem turns_eq (m : Machine) (moves : Nat) (e : Execution) :
    m.turns moves e = (.ofHalt? (m.runFor moves e).halt, m.runFor moves e) := by
  induction moves generalizing e with
  | zero =>
    rw [runFor_zero, turns]
    split
    · next hmoves =>
      obtain ⟨_, _, _, _, halt⟩ := e
      cases halt with
      | none => rfl
      | some _ => cases hmoves
    · exact congrArg (·, m.step e) (m.returned_turn e)
  | succ moves ih =>
    rw [runFor_succ, turns_succ]
    split
    · rfl
    · exact ih (m.step e)

/-- A run under a budget returns the halt of the execution that it leaves. -/
theorem turnsWithin_eq (m : Machine) (budget : Nat) (e : Execution) :
    m.turnsWithin budget e = (.ofHalt? (m.runBounded budget e).halt, m.runBounded budget e) :=
  m.turns_eq _ e

/-- A halted run uses nothing of its budget. -/
theorem runFor_of_isHalted (m : Machine) (moves : Nat) {e : Execution} (h : e.isHalted = true) :
    m.runFor moves e = e := by
  cases moves with
  | zero => simp [runFor_zero, movesNext, h, step_of_isHalted]
  | succ n => simp [runFor_succ, step_of_isHalted m h, h]

end Machine

end TapeMachine
