import TapeMachine.Program
import TapeMachine.Text.Lines

/-!
# Findings

What is likely to be a mistake in a program: states beyond the declared number, symbols beyond the
declared alphabet, inputs that begin off the tape, and rules of states that no run can enter. A
machine runs with all of these; only a strict program is refused for them.
-/

namespace TapeMachine

/-- A likely mistake in a program. -/
inductive Finding where
  /-- The start state is beyond the declared number of states. -/
  | invalidStart (state : State) (numStates : Nat)
  /-- Rules mention states beyond the declared number. -/
  | statesOutOfRange (states : List State)
  /-- Rules read or write symbols that are not declared. -/
  | undeclaredSymbols (symbols : List Symbol)
  /-- States have rules but are never entered. -/
  | unreachableStates (states : List State)
  /-- The tape of an input holds symbols that are not declared. -/
  | undeclaredOnTape (run : Nat) (symbols : List Symbol)
  /-- An input begins with the head off its tape. -/
  | headOffTape (run : Nat) (head : Int) (length : Nat)
  deriving DecidableEq

/-- The finding in words. -/
def Finding.text : Finding → String
  | invalidStart state numStates =>
    "Invalid start state: " ++ state.text ++ " (machine has " ++ Text.natural numStates ++
      " states)"
  | statesOutOfRange states => "States out of range: " ++ Text.join ", " (states.map State.text)
  | undeclaredSymbols symbols =>
    "Symbols not in the alphabet: " ++ Text.join ", " (symbols.map Symbol.text)
  | unreachableStates states =>
    "Unreachable states detected: " ++ Text.join ", " (states.map State.text)
  | undeclaredOnTape run symbols =>
    "Run " ++ Text.natural run ++ " contains symbols not in the alphabet: " ++
      Text.join ", " (symbols.map Symbol.text)
  | headOffTape run head length =>
    "Run " ++ Text.natural run ++ " starts at head " ++ Text.integer head ++
      ", outside a tape of length " ++ Text.natural length

/-- The states that the moves of a state lead to, in the order of the symbols read. -/
def Table.successors (t : Table) (state : State) : List State :=
  ((t.rulesFrom state).filter fun r ↦ !r.transition.action.isHalting).map fun r ↦ r.transition.next

/-- States that have been met: those still to be left, in the order met, and all of them. -/
structure Search where
  pending : List State
  met : SortedSet State

/-- Meets a state; one that was met before changes nothing. -/
def Search.meet (s : Search) (state : State) : Search :=
  if s.met.contains state then s else ⟨s.pending ++ [state], s.met.add state⟩

/-- Leaves up to a number of pending states by all their moves. -/
def Search.explore (t : Table) : Nat → Search → Search
  | 0, s => s
  | rounds + 1, s =>
    match s.pending with
    | [] => s
    | state :: rest => explore t rounds ((t.successors state).foldl Search.meet ⟨rest, s.met⟩)

namespace Machine

/-- The states that chains of moves lead to from the start state. There are at most as many of them
besides the start state as there are rules. -/
def reachable (m : Machine) : SortedSet State :=
  (Search.explore m.table (m.table.size + 1) (Search.meet ⟨[], SortedMap.empty⟩ m.start)).met

/-- The states that rules mention, with repetitions. -/
def mentionedStates (m : Machine) : List State :=
  m.table.rules.flatMap fun r ↦ [r.trigger.state, r.transition.next]

/-- The symbols that rules read or write, with repetitions. -/
def mentionedSymbols (m : Machine) : List Symbol :=
  m.table.rules.flatMap fun r ↦ [r.trigger.symbol, r.transition.write]

/-- The symbols of a list that are not declared, each once, in order. -/
def undeclared (m : Machine) (symbols : List Symbol) : List Symbol :=
  (SortedSet.ofList (symbols.filter fun s ↦ !m.alphabet.contains s)).toList

/-- The mentioned states beyond the declared number, each once, in order. -/
def statesOutOfRange (m : Machine) : List State :=
  (SortedSet.ofList (m.mentionedStates.filter fun q ↦ m.numStates ≤ q.index)).toList

/-- The states that have rules and cannot be entered, each once, in order. -/
def unreachableStates (m : Machine) : List State :=
  let sources := m.table.rules.map fun r ↦ r.trigger.state
  let reachable := m.reachable
  (SortedSet.ofList (sources.filter fun q ↦ !reachable.contains q)).toList

/-- The findings about a machine apart from any input. -/
def findings (m : Machine) : List Finding :=
  (if m.numStates ≤ m.start.index then [Finding.invalidStart m.start m.numStates] else []) ++
  (match m.statesOutOfRange with
    | [] => []
    | states => [Finding.statesOutOfRange states]) ++
  (match m.undeclared m.mentionedSymbols with
    | [] => []
    | symbols => [Finding.undeclaredSymbols symbols]) ++
  (match m.unreachableStates with
    | [] => []
    | states => [Finding.unreachableStates states])

/-- The findings about one input, which is the `number`th of its program. -/
def runFindings (m : Machine) (number : Nat) (r : Run) : List Finding :=
  (match m.undeclared r.tape.toList with
    | [] => []
    | symbols => [Finding.undeclaredOnTape number symbols]) ++
  (if (r.tape.index? r.head).isSome then [] else [Finding.headOffTape number r.head r.tape.size])

end Machine

/-- All findings about a program: those about the machine, then those about each input. -/
def Program.findings (p : Program) : List Finding :=
  p.machine.findings ++ p.runs.zipIdx.flatMap fun r ↦ p.machine.runFindings r.2 r.1

/-- The findings that a program is warned about, or the first finding if it is strict and has one.
-/
def Program.check (p : Program) : Except Finding (List Finding) :=
  match p.mode, p.findings with
  | .normal, findings => .ok findings
  | .strict, [] => .ok []
  | .strict, first :: _ => .error first

end TapeMachine
