import TapeMachine.Halt
import TapeMachine.Machine

/-!
# Executions

A run under way, and one step of a machine on it, with what the step returns and logs. The head is
checked against the tape before the symbol under it is read, and again after a move. A move that
leaves the tape still enters its state, is counted and is logged, but the head stays on the last
cell. A rule that halts writes its symbol and does nothing else. A halted execution never changes
again and logs nothing more.
-/

namespace TapeMachine

/-- A run under way, or at its end once it has a halt. -/
structure Execution where
  state : State
  tape : Tape
  head : Int
  /-- The number of moves made. It has no bound here; a count that is held in a word agrees with it
  as long as it is at most `maxCount` (`Machine.stepIn_eq`). -/
  steps : Nat
  halt : Option Halt
  deriving DecidableEq

/-- What an execution logs. -/
inductive Event where
  /-- A move: the state entered, where the head was sent, the tape as written, the moves made. -/
  | moved (state : State) (head : Int) (tape : Tape) (steps : Nat)
  /-- The end of a run, with the state, the head and the moves made. -/
  | halted (halt : Halt) (state : State) (head : Int) (steps : Nat)
  deriving DecidableEq

/-- A step that has been made: what it returned, the execution it left, and what it logged. -/
structure Turn where
  returned : Step
  execution : Execution
  log : List Event

namespace Turn

/-- The execution stops: its halt is logged, kept and returned. -/
def stop (state : State) (tape : Tape) (head : Int) (steps : Nat) (halt : Halt) : Turn :=
  ⟨.halt halt, ⟨state, tape, head, steps, some halt⟩, [.halted halt state head steps]⟩

/-- The turn with an event logged before all others. -/
def after (event : Event) (t : Turn) : Turn := { t with log := event :: t.log }

/-- A move into `state` that takes the head from `head` to `target`, on the tape as it has been
written, `steps` moves having been made before. It is logged before the head is checked. -/
def move (state : State) (tape : Tape) (head target : Int) (steps : Nat) : Turn :=
  after (.moved state target tape (steps + 1)) <|
    match tape.index? target with
    | some _ => ⟨.proceed, ⟨state, tape, target, steps + 1, none⟩, []⟩
    | none => stop state tape head (steps + 1) (.outOfBounds target)

/-- A move returns the halt of the execution that it leaves. -/
theorem returned_move (state : State) (tape : Tape) (head target : Int) (steps : Nat) :
    (move state tape head target steps).returned =
      .ofHalt? (move state tape head target steps).execution.halt := by
  rw [move]
  cases tape.index? target <;> rfl

end Turn

namespace Execution

/-- The run has stopped. -/
def isHalted (e : Execution) : Bool := e.halt.isSome

/-- The symbol under the head, if the head is on the tape. -/
def symbol? (e : Execution) : Option Symbol := e.tape.get? e.head

/-- The outcome of a run that has stopped. -/
def outcome? (e : Execution) : Option Outcome :=
  e.halt.map fun h ↦ ⟨h, e.state, e.tape, e.head, e.steps⟩

end Execution

namespace Machine

/-- The execution that is about to begin on a tape. -/
def launch (m : Machine) (tape : Tape) (head : Int) : Execution :=
  ⟨m.start, tape, head, 0, none⟩

/-- One step of a machine, with what it returns and logs. -/
def turn (m : Machine) : Execution → Turn
  | ⟨state, tape, head, steps, some halt⟩ =>
    ⟨.halt halt, ⟨state, tape, head, steps, some halt⟩, []⟩
  | ⟨state, tape, head, steps, none⟩ =>
    match tape.index? head with
    | none => .stop state tape head steps (.outOfBounds head)
    | some cell =>
      let symbol := tape.get cell
      match m.table.lookup state symbol with
      | none => .stop state tape head steps (.undefined state symbol)
      | some t =>
        match t.action with
        | .moveRight => .move t.next (tape.write cell t.write) head (head + 1) steps
        | .moveLeft => .move t.next (tape.write cell t.write) head (head - 1) steps
        | .accept => .stop state (tape.write cell t.write) head steps .accepted
        | .reject => .stop state (tape.write cell t.write) head steps .rejected

/-- The execution after one step of a machine. -/
def step (m : Machine) (e : Execution) : Execution := (m.turn e).execution

/-- A step returns the halt of the execution that it leaves. -/
theorem returned_turn (m : Machine) (e : Execution) :
    (m.turn e).returned = .ofHalt? (m.step e).halt := by
  obtain ⟨state, tape, head, steps, halt⟩ := e
  cases halt with
  | some halt => rfl
  | none =>
    simp only [step, turn]
    split
    · rfl
    · split
      · rfl
      · split
        · exact Turn.returned_move ..
        · exact Turn.returned_move ..
        · rfl
        · rfl

/-- The next step moves the head. A halted run, a head off the tape, a missing rule and a rule that
halts make no move. -/
def movesNext (m : Machine) (e : Execution) : Bool :=
  !e.isHalted &&
    match e.symbol? with
    | none => false
    | some symbol =>
      match m.table.lookup e.state symbol with
      | none => false
      | some t => !t.action.isHalting

/-- A halted execution never changes again. -/
theorem step_of_isHalted (m : Machine) {e : Execution} (h : e.isHalted = true) : m.step e = e := by
  obtain ⟨_, _, _, _, halt⟩ := e
  cases halt with
  | none => cases h
  | some _ => rfl

end Machine

end TapeMachine
