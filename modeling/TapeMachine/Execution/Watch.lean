import TapeMachine.Execution.Budget

/-!
# Watched runs

A run that is given up after a number of moves can be watched: a visitor sees it after each step
that did not end it, and gathers what it wants to keep.
-/

namespace TapeMachine.Machine

/-- Runs until the machine halts, or has made `limit` moves and would make another; a limit of zero
is none. Every execution that a step leads to without a halt is shown to `visit`. At most `rounds`
steps are made, so a run without a limit comes to its end only if `rounds` is more than its number
of moves. -/
def watch {σ : Type} (m : Machine) (limit : Nat) (visit : σ → Execution → σ) :
    Nat → σ → Execution → σ × Execution
  | 0, seen, e => (seen, e)
  | rounds + 1, seen, e =>
    if limit ≠ 0 ∧ limit ≤ e.steps ∧ m.movesNext e then (seen, e)
    else
      let next := m.step e
      if next.isHalted then (seen, next) else watch m limit visit rounds (visit seen next) next

end TapeMachine.Machine
