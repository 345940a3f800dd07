import TapeMachine.Rule

/-!
# Transition tables

The rules of a machine: at most one for each trigger, in the order of the triggers.
-/

namespace TapeMachine

/-- A finite map from triggers to transitions. -/
abbrev Table : Type := SortedMap Trigger Transition

namespace Table

/-- The transition for a state and a symbol, if the machine has a rule for them. -/
def lookup (t : Table) (state : State) (symbol : Symbol) : Option Transition :=
  SortedMap.find? t ⟨state, symbol⟩

/-- The table with a rule, which replaces an earlier one for its trigger. -/
def define (t : Table) (r : Rule) : Table := SortedMap.insert t r.trigger r.transition

/-- The transition that defining a rule replaces. -/
def replaced (t : Table) (r : Rule) : Option Transition := SortedMap.find? t r.trigger

/-- The rules in the order of their triggers. -/
def rules (t : Table) : List Rule := t.entries.map fun e ↦ ⟨e.1, e.2⟩

/-- The rules that fire in a state, in the order of their symbols. -/
def rulesFrom (t : Table) (state : State) : List Rule :=
  t.rules.filter fun r ↦ r.trigger.state = state

/-- A defined rule is found. -/
theorem lookup_define_self (t : Table) (r : Rule) :
    (t.define r).lookup r.trigger.state r.trigger.symbol = some r.transition := by
  simp [lookup, define]

/-- Defining a rule leaves the look-ups of other triggers alone. -/
theorem lookup_define_of_ne (t : Table) {r : Rule} {state : State} {symbol : Symbol}
    (h : r.trigger ≠ ⟨state, symbol⟩) : (t.define r).lookup state symbol = t.lookup state symbol :=
  SortedMap.find?_insert_of_ne t r.transition h

/-- The listed rules are exactly those that are found. -/
theorem mem_rules_iff {t : Table} {r : Rule} :
    r ∈ t.rules ↔ t.lookup r.trigger.state r.trigger.symbol = some r.transition := by
  unfold rules lookup
  rw [← SortedMap.mem_entries_iff, List.mem_map]
  constructor
  · rintro ⟨e, he, rfl⟩
    exact he
  · exact fun h ↦ ⟨_, h, rfl⟩

/-- Tables with the same look-ups are equal. -/
theorem ext_lookup {a b : Table} (h : ∀ q s, a.lookup q s = b.lookup q s) : a = b :=
  SortedMap.ext_find? fun k ↦ h k.state k.symbol

end Table

end TapeMachine
