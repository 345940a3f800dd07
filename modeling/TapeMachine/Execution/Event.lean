import TapeMachine.Execution.Budget

/-!
# The event log

Every move is logged, with the position that the head was sent to whether it lies on the tape or
not, and every halt is logged once.
-/

namespace TapeMachine.Machine

/-- The events of the next step. -/
def stepEvents (m : Machine) (e : Execution) : List Event := (m.turn e).log

/-- The events of a run for a number of moves. -/
def runForEvents (m : Machine) : Nat → Execution → List Event
  | 0, e => if m.movesNext e then [] else m.stepEvents e
  | moves + 1, e =>
    let next := m.step e
    if next.isHalted then m.stepEvents e else m.stepEvents e ++ runForEvents m moves next

/-- The events of a run under a budget. -/
def runBoundedEvents (m : Machine) (budget : Nat) (e : Execution) : List Event :=
  m.runForEvents (min (e.steps + budget) maxCount - e.steps) e

/-- The events of a run to its end. -/
def runEvents (m : Machine) (tape : Tape) (head : Int) : List Event :=
  m.runForEvents (m.haltBound tape) (m.launch tape head)

/-- A halted run logs nothing more. -/
theorem stepEvents_of_isHalted (m : Machine) {e : Execution} (h : e.isHalted = true) :
    m.stepEvents e = [] := by
  obtain ⟨_, _, _, _, halt⟩ := e
  cases halt with
  | none => cases h
  | some _ => rfl

end TapeMachine.Machine
