import Mathlib.Logic.Relation
import TapeMachine.Proofs.Finding.Checks
import TapeMachine.Proofs.Finding.Search
import TapeMachine.Proofs.SortedMap

/-!
# Reachable states

The rules that move lead from state to state, and chains of them say which states can be reached
(`Machine.Reaches`). The search meets these states and no others (`contains_reachable_iff`): what it
meets is reached, since a state becomes pending only when a move from a reached state leads to it,
and what is reached is met, since what it meets at its end is closed under moves. So the finding
about unreachable states lists the states with rules that no chain of moves leads to
(`unreachableStates_mem_findings_iff_lists`).
-/

namespace TapeMachine

/-- An action goes on exactly if it is a move to the right or to the left. -/
theorem Action.isHalting_eq_false_iff_move {a : Action} :
    a.isHalting = false ↔ a = .moveRight ∨ a = .moveLeft := by
  cases a <;> decide

namespace Machine

variable {m : Machine} {q q' : State}

/-- A rule of the one state moves and enters the other. -/
def LeadsTo (m : Machine) (q q' : State) : Prop :=
  ∃ r ∈ m.table.rules, r.trigger.state = q ∧
    (r.transition.action = .moveRight ∨ r.transition.action = .moveLeft) ∧ r.transition.next = q'

/-- A chain of moves, which may have none, leads from the one state to the other. -/
def Reaches (m : Machine) : State → State → Prop := Relation.ReflTransGen m.LeadsTo

/-- The state has rules, but no chain of moves leads to it from the start state. -/
structure Strands (m : Machine) (q : State) : Prop where
  has_rule : ∃ r ∈ m.table.rules, r.trigger.state = q
  not_reaches : ¬m.Reaches m.start q

/-- The successors of a state are the states that its moves lead to. -/
theorem mem_successors_iff_leadsTo : q' ∈ m.table.successors q ↔ m.LeadsTo q q' := by
  simp only [Table.mem_successors_iff, Action.isHalting_eq_false_iff_move, LeadsTo]

/-- A search that has reached all that it has met and all that is pending has reached all that it
meets to its end. -/
theorem reaches_of_exhausts {s last : Search} (h : s.Exhausts m.table last)
    (hpending : ∀ q ∈ s.pending, m.Reaches m.start q)
    (hmet : ∀ q, s.met.contains q = true → m.Reaches m.start q)
    (hq : last.met.contains q = true) : m.Reaches m.start q := by
  induction h with
  | done => exact hmet q hq
  | @leave p rest met last _ ih =>
    have hp : m.Reaches m.start p := hpending p List.mem_cons_self
    have hsucc : ∀ q ∈ m.table.successors p, m.Reaches m.start q := fun q hq ↦
      hp.tail (mem_successors_iff_leadsTo.mp hq)
    refine ih ?_ ?_ hq
    · intro q hq
      rcases Search.mem_pending_foldl_meet.mp hq with hq | ⟨hq, -⟩
      · exact hpending q (List.mem_cons_of_mem _ hq)
      · exact hsucc q hq
    · intro q hq
      rcases Search.contains_foldl_meet.mp hq with hq | hq
      · exact hsucc q hq
      · exact hmet q hq

/-- The search meets exactly the states that chains of moves lead to from the start state. -/
theorem contains_reachable_iff : m.reachable.contains q = true ↔ m.Reaches m.start q := by
  obtain ⟨last, hlast, hmet⟩ := m.exists_exhausts_reachable
  rw [← hmet]
  constructor
  · intro hq
    refine reaches_of_exhausts hlast ?_ ?_ hq
    · intro p hp
      rcases Search.mem_pending_meet.mp hp with hp | ⟨rfl, -⟩
      · exact absurd hp List.not_mem_nil
      · exact .refl
    · intro p hp
      exact Search.contains_startingAt.mp hp ▸ .refl
  · intro h
    induction h with
    | refl => exact hlast.contains (Search.contains_startingAt.mpr rfl)
    | tail _ hstep ih =>
      exact hlast.closed (Search.explored_startingAt m.table m.start) ih _
        (mem_successors_iff_leadsTo.mpr hstep)

/-- The unreachable states are listed. -/
theorem lists_unreachableStates (m : Machine) : Lists m.Strands m.unreachableStates where
  ascending := SortedSet.pairwise_toList _
  mem_iff q := by
    rw [mem_unreachableStates_iff, ← Bool.not_eq_true, contains_reachable_iff]
    exact ⟨fun ⟨hr, hn⟩ ↦ ⟨hr, hn⟩, fun ⟨hr, hn⟩ ↦ ⟨hr, hn⟩⟩

/-- The search for states comes to its end on every table, and the finding about unreachable states
lists exactly the states that have rules and that no chain of moves leads to from the start state,
in ascending order. It is made exactly if there are any. -/
theorem unreachableStates_mem_findings_iff_lists (m : Machine) :
    (∃ last, (Search.startingAt m.start).Exhausts m.table last ∧ last.met = m.reachable ∧
      ∀ q, last.met.contains q = true ↔ m.Reaches m.start q) ∧
    (∀ listed, Finding.unreachableStates listed ∈ m.findings ↔
      listed ≠ [] ∧ Lists m.Strands listed) ∧
    ((∀ listed, Finding.unreachableStates listed ∉ m.findings) ↔ ∀ q, ¬m.Strands q) := by
  have hlists := m.lists_unreachableStates
  refine ⟨?_, fun listed ↦ ?_, ?_⟩
  · obtain ⟨last, hlast, hmet⟩ := m.exists_exhausts_reachable
    refine ⟨last, hlast, hmet, fun q ↦ ?_⟩
    rw [hmet]
    exact contains_reachable_iff
  · rw [unreachableStates_mem_findings_iff]
    constructor
    · rintro ⟨rfl, hne⟩
      exact ⟨hne, hlists⟩
    · rintro ⟨hne, h⟩
      exact ⟨h.unique hlists, hne⟩
  · have hmade : (∃ listed, Finding.unreachableStates listed ∈ m.findings) ↔
        ∃ q, m.Strands q := by
      simp only [unreachableStates_mem_findings_iff, exists_eq_left, hlists.ne_nil_iff]
    simpa only [not_exists] using not_congr hmade

end Machine

end TapeMachine
