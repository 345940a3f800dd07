import TapeMachine.Rule
import TapeMachine.Tape

/-!
# Halts and outcomes

Why a run stopped, what a step of it returns, and what it left behind.
-/

namespace TapeMachine

/-- Why a run stopped. -/
inductive Halt where
  /-- A rule accepted the input. -/
  | accepted
  /-- A rule rejected the input. -/
  | rejected
  /-- No rule fires in this state on this symbol. -/
  | undefined (state : State) (symbol : Symbol)
  /-- The head was, or would have gone, off the tape. -/
  | outOfBounds (position : Int)
  deriving DecidableEq

/-- The halt in words. -/
def Halt.text : Halt → String
  | accepted => "Input accepted."
  | rejected => "Input rejected."
  | undefined state symbol =>
    "No transition defined for (" ++ state.text ++ " , " ++ symbol.text ++ ")"
  | outOfBounds position =>
    "HANG >> Head moved out of tape bounds (position " ++ Text.integer position ++ ")"

/-- What a step returns, and what a run under a budget returns. -/
inductive Step where
  /-- The run can go on. -/
  | proceed
  /-- The run has stopped. -/
  | halt (halt : Halt)
  deriving DecidableEq

/-- What there is to return about a run with this halt, or with none. -/
def Step.ofHalt? : Option Halt → Step
  | none => proceed
  | some h => halt h

/-- The end of a run. -/
structure Outcome where
  halt : Halt
  /-- The state at the end; after a move off the tape, the state which that move entered. -/
  state : State
  tape : Tape
  /-- The last position of the head on the tape, or where a run that never touched it began. -/
  head : Int
  /-- The number of moves made; the rule that halts is not counted. -/
  steps : Nat
  deriving DecidableEq

namespace Outcome

/-- The run accepted its input. -/
def isAccepted (o : Outcome) : Bool := o.halt = .accepted

/-- The run rejected its input. -/
def isRejected (o : Outcome) : Bool := o.halt = .rejected

end Outcome

end TapeMachine
