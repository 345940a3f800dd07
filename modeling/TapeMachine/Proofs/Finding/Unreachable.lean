import TapeMachine.Proofs.Execution.Calls
import TapeMachine.Proofs.Finding.Checks
import TapeMachine.Proofs.Finding.Search

/-!
# Unreachable states

A run is always in a state that the search for states meets, so it is never in one that is listed as
unreachable. The rules of the listed states can be dropped without any run going otherwise
(`run_avoids_unreachable`).
-/

namespace TapeMachine

/-! ### Dropping rules -/

/-- The table without the rules of some states. -/
def Table.dropRulesOf (t : Table) (states : List State) : Table :=
  ⟨t.entries.filter fun e ↦ e.1.state ∉ states, List.Pairwise.filter _ t.ascending⟩

/-- The rules that are left are those of other states. -/
theorem Table.mem_rules_dropRulesOf_iff {t : Table} {states : List State} {r : Rule} :
    r ∈ (t.dropRulesOf states).rules ↔ r ∈ t.rules ∧ r.trigger.state ∉ states := by
  simp only [rules, dropRulesOf, List.mem_map, List.mem_filter, decide_eq_true_iff]
  constructor
  · rintro ⟨e, ⟨he, hq⟩, rfl⟩
    exact ⟨⟨e, he, rfl⟩, hq⟩
  · rintro ⟨⟨e, he, rfl⟩, hq⟩
    exact ⟨e, ⟨he, hq⟩, rfl⟩

namespace Machine

variable {m : Machine} {states : List State}

/-- The machine without the rules of some states. -/
def dropRulesOf (m : Machine) (states : List State) : Machine :=
  { m with table := m.table.dropRulesOf states }

/-- The rules of a state that is not among them stay. -/
theorem hasRule_dropRulesOf_iff {q : State} {s : Symbol} {t : Transition} (hq : q ∉ states) :
    (m.dropRulesOf states).HasRule q s t ↔ m.HasRule q s t := by
  rw [HasRule, dropRulesOf, Table.mem_rules_dropRulesOf_iff]
  exact and_iff_left hq

/-- In a state whose rules stay, a round goes as before. -/
theorem Round.dropRulesOf {e e' : Execution} (hq : e.state ∉ states) (h : m.Round e e') :
    (m.dropRulesOf states).Round e e' := by
  cases h with
  | stopped hh => exact .stopped hh
  | outside hn hc => exact .outside hn hc
  | undefined hn hr ht =>
    exact .undefined hn hr fun t ht' ↦ ht t ((hasRule_dropRulesOf_iff hq).mp ht')
  | accepted hn hr ht ha => exact .accepted hn hr ((hasRule_dropRulesOf_iff hq).mpr ht) ha
  | rejected hn hr ht ha => exact .rejected hn hr ((hasRule_dropRulesOf_iff hq).mpr ht) ha
  | moved hn hr ht hd hc => exact .moved hn hr ((hasRule_dropRulesOf_iff hq).mpr ht) hd hc
  | left hn hr ht hd hc => exact .left hn hr ((hasRule_dropRulesOf_iff hq).mpr ht) hd hc

/-- A run that is never in one of the states goes the same way without their rules. -/
theorem iterate_step_dropRulesOf {e : Execution} {k : Nat}
    (h : ∀ j < k, (m.step^[j] e).state ∉ states) :
    (m.dropRulesOf states).step^[k] e = m.step^[k] e := by
  induction k with
  | zero => rfl
  | succ k ih =>
    rw [Function.iterate_succ_apply', Function.iterate_succ_apply',
      ih fun j hj ↦ h j (by omega)]
    exact ((m.round_step _).dropRulesOf (h k (Nat.lt_succ_self k))).eq_step.symm

/-! ### The states of a run -/

/-- A round leads from a state that the search meets to one that it meets. -/
theorem Round.contains_reachable {e e' : Execution} (h : m.Round e e')
    (he : m.reachable.contains e.state = true) : m.reachable.contains e'.state = true := by
  cases h with
  | moved _ _ ht hd _ => exact contains_reachable_of_hasRule he ht hd
  | left _ _ ht hd _ => exact contains_reachable_of_hasRule he ht hd
  | _ => exact he

/-- A run is in a state that the search meets after every number of steps. -/
theorem contains_reachable_iterate_step (m : Machine) (tape : Tape) (head : Int) (k : Nat) :
    m.reachable.contains (m.step^[k] (m.launch tape head)).state = true :=
  Function.Iterate.rec (fun e ↦ m.reachable.contains e.state = true) (contains_reachable_start m)
    (fun e h ↦ (m.round_step e).contains_reachable h) k

/-- A run is never in an unreachable state. -/
theorem state_notMem_unreachableStates (m : Machine) (tape : Tape) (head : Int) (k : Nat) :
    (m.step^[k] (m.launch tape head)).state ∉ m.unreachableStates := by
  intro hmem
  have hno := (mem_unreachableStates_iff.mp hmem).2
  rw [contains_reachable_iterate_step m tape head k] at hno
  cases hno

end Machine

/-- A run is never in a state that is found to be unreachable, neither under way nor at its end, and
no halt names one. Without the rules of these states it goes the same way. -/
theorem run_avoids_unreachable {p : Program} {listed : List State}
    (h : Finding.unreachableStates listed ∈ p.findings) (tape : Tape) (head : Int) (k : Nat) :
    let e := p.machine.step^[k] (p.machine.launch tape head)
    e.state ∉ listed ∧ (∀ state symbol, e.halt = some (.undefined state symbol) → state ∉ listed) ∧
      (p.machine.dropRulesOf listed).step^[k] ((p.machine.dropRulesOf listed).launch tape head) =
        e := by
  intro e
  obtain ⟨rfl, -⟩ := Program.unreachableStates_mem_findings_iff.mp h
  have hstate := p.machine.state_notMem_unreachableStates tape head
  refine ⟨hstate k, ?_, Machine.iterate_step_dropRulesOf fun j _ ↦ hstate j⟩
  intro state symbol hx
  have htrail := Execution.trail_iterate_step p.machine tape head k
  rw [(htrail.undefined state symbol hx).1]
  exact hstate k

/-- A machine with rules for a state that only a rule of its own and a rule that halts name as next.
-/
def island : Program where
  name := "island"
  mode := .normal
  machine := (((Machine.blank 3 ⟨0⟩).define
    ⟨⟨⟨0⟩, ⟨'a', .refl true⟩⟩, ⟨⟨1⟩, ⟨'a', .refl true⟩, .moveRight⟩⟩).define
    ⟨⟨⟨1⟩, ⟨'a', .refl true⟩⟩, ⟨⟨2⟩, ⟨'a', .refl true⟩, .accept⟩⟩).define
    ⟨⟨⟨2⟩, ⟨'a', .refl true⟩⟩, ⟨⟨2⟩, ⟨'b', .refl true⟩, .moveLeft⟩⟩
  runs := []

/-- That state is found, and a run that leaves its tape is neither in it nor needs its rule. -/
theorem run_avoids_unreachable_island :
    let tape : Tape := ⟨#[⟨'a', rfl⟩]⟩
    Finding.unreachableStates [⟨2⟩] ∈ island.findings ∧
      ∃ e, e = island.machine.step^[2] (island.machine.launch tape 0) ∧
        e.halt = some (.outOfBounds 1) ∧ e.state ∉ [(⟨2⟩ : State)] ∧
        (island.machine.dropRulesOf [⟨2⟩]).step^[2]
          ((island.machine.dropRulesOf [⟨2⟩]).launch tape 0) = e ∧
        (island.machine.dropRulesOf [⟨2⟩]).table.size = 2 := by
  intro tape
  have hfound : Finding.unreachableStates [⟨2⟩] ∈ island.findings := by decide
  obtain ⟨hstate, -, hsame⟩ := run_avoids_unreachable hfound tape 0 2
  exact ⟨hfound, _, rfl, by decide, hstate, hsame, by decide⟩

end TapeMachine
