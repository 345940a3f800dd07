import TapeMachine.Machine
import TapeMachine.Tape

/-!
# Programs

A machine with a name, the inputs it comes with, and how strictly it is to be checked.
-/

namespace TapeMachine

/-- How findings about a program are treated: a strict program must have none. -/
inductive Mode where
  | normal
  | strict
  deriving DecidableEq, Repr

/-- The name of a mode. -/
def Mode.text : Mode → String
  | normal => "Normal"
  | strict => "Strict"

/-- An input: a tape and the position at which the head begins. -/
structure Run where
  tape : Tape
  head : Int
  deriving DecidableEq

/-- A named machine with its inputs. -/
structure Program where
  name : String
  mode : Mode
  machine : Machine
  runs : List Run
  deriving DecidableEq

end TapeMachine
