import TapeMachine.Table

/-!
# Machines

A machine is a table of rules with a start state. The number of states and the alphabet are what its
author declares; they bind nothing by themselves.
-/

namespace TapeMachine

/-- A deterministic machine with a single tape. -/
structure Machine where
  numStates : Nat
  start : State
  alphabet : SortedSet Symbol
  table : Table
  deriving DecidableEq

namespace Machine

/-- A machine without symbols and rules. -/
def blank (numStates : Nat) (start : State) : Machine :=
  ⟨numStates, start, SortedMap.empty, SortedMap.empty⟩

/-- The machine with a symbol in its alphabet. -/
def addSymbol (m : Machine) (s : Symbol) : Machine := { m with alphabet := m.alphabet.add s }

/-- The machine with a rule, which replaces an earlier one for its trigger. -/
def define (m : Machine) (r : Rule) : Machine := { m with table := m.table.define r }

end Machine

end TapeMachine
