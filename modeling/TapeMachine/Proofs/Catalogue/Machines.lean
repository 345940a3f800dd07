import TapeMachine.Catalogue
import TapeMachine.Proofs.Execution.Round
import TapeMachine.Proofs.SortedMap

/-!
# Machines of the catalogue

The machines that the definitions of the catalogue describe, with their rules in order
(`parse_sources`).
-/

namespace TapeMachine.Catalogue

/-- The letter `a`. -/
def letterA : Symbol := ⟨'a', .refl true⟩

/-- The letter `b`. -/
def letterB : Symbol := ⟨'b', .refl true⟩

/-- The symbol that ends an input. -/
def hash : Symbol := ⟨'#', .refl true⟩

/-- The symbol that marks the left end of an input. -/
def leftMark : Symbol := ⟨'<', .refl true⟩

/-- The symbol is `a` or `b`. -/
def IsLetter (s : Symbol) : Prop := s = letterA ∨ s = letterB

instance : DecidablePred IsLetter := fun s ↦ inferInstanceAs (Decidable (s = letterA ∨ s = letterB))

/-- The rule for the state `q` on `s`. -/
def rule (q : Nat) (s : Symbol) (next : Nat) (write : Symbol) (action : Action) : Rule :=
  ⟨⟨⟨q⟩, s⟩, ⟨⟨next⟩, write, action⟩⟩

/-- The machine with these rules that begins in its first state. -/
def machineOf (numStates : Nat) (alphabet : List Symbol) (rules : List Rule) : Machine :=
  ⟨numStates, ⟨0⟩, SortedSet.ofList alphabet, rules.foldl Table.define SortedMap.empty⟩

/-- A machine of rules has no others. -/
theorem mem_of_hasRule_machineOf {numStates : Nat} {alphabet : List Symbol} {rules : List Rule}
    {q : State} {s : Symbol} {t : Transition}
    (h : (machineOf numStates alphabet rules).HasRule q s t) : ⟨⟨q, s⟩, t⟩ ∈ rules := by
  rcases Table.mem_of_mem_rules_foldl_define h with hmem | hmem
  · exact hmem
  · exact absurd hmem List.not_mem_nil

/-- A machine of rules has none for a symbol that none of them reads. -/
theorem not_hasRule_machineOf {numStates : Nat} {alphabet : List Symbol} {rules : List Rule}
    {q : State} {s : Symbol} (h : s ∉ rules.map (·.trigger.symbol)) (t : Transition) :
    ¬(machineOf numStates alphabet rules).HasRule q s t :=
  fun ht ↦ h (List.mem_map_of_mem (mem_of_hasRule_machineOf ht))

/-- The machine that tells whether the number of a's is even. -/
def evenAsMachine : Machine := machineOf 2 [letterA, letterB, hash]
  [rule 0 letterA 1 letterA .moveRight,
    rule 0 letterB 0 letterB .moveRight,
    rule 0 hash 0 hash .accept,
    rule 1 letterA 0 letterA .moveRight,
    rule 1 letterB 1 letterB .moveRight,
    rule 1 hash 1 hash .reject]

/-- The machine that erases its input. -/
def eraserMachine : Machine := machineOf 1 [letterA, letterB, hash]
  [rule 0 letterA 0 hash .moveRight,
    rule 0 letterB 0 hash .moveRight,
    rule 0 hash 0 hash .accept]

/-- The machine that goes left to a mark. -/
def parkHeadMachine : Machine := machineOf 2 [letterA, letterB, hash, leftMark]
  [rule 0 letterA 0 letterA .moveLeft,
    rule 0 letterB 0 letterB .moveLeft,
    rule 0 hash 0 hash .moveLeft,
    rule 0 leftMark 1 leftMark .moveRight,
    rule 1 letterA 1 letterA .accept,
    rule 1 letterB 1 letterB .accept,
    rule 1 hash 1 hash .accept,
    rule 1 leftMark 1 leftMark .reject]

/-- The machine that turns a's into b's. -/
def rewriteAMachine : Machine := machineOf 2 [letterA, letterB, hash]
  [rule 0 letterA 1 letterA .moveRight,
    rule 0 letterB 0 letterB .moveRight,
    rule 0 hash 0 hash .reject,
    rule 1 letterA 0 letterB .moveLeft,
    rule 1 letterB 1 letterB .moveLeft,
    rule 1 hash 1 hash .accept]

/-- The name and the machine in a definition, if it is accepted. -/
def described? (source : String) : Option (String × Machine) :=
  (Definition.parse source).toOption.map fun r ↦ (r.1.name, r.1.machine)

/-- The names and the machines of the catalogue. -/
def machines : List (String × Machine) :=
  [("Even number of a's", evenAsMachine), ("Eraser", eraserMachine), ("Park head", parkHeadMachine),
    ("Rewrite a's", rewriteAMachine)]

/-- The definitions of the catalogue are accepted, and describe these machines. -/
theorem parse_sources : sources.map described? = machines.map some := by
  -- To evaluate the joined texts is slow, so each line is turned into a list of characters first.
  simp only [sources, List.map_cons, List.map_nil, described?, Definition.parse, evenAs, eraser,
    parkHead, rewriteA, Text.toList_closed, List.flatMap_cons, List.flatMap_nil]
  repeat rewrite [String.toList_ofList]
  decide +kernel

end TapeMachine.Catalogue
