import TapeMachine.Proofs.Execution.Run
import TapeMachine.Proofs.Finding.Declared

/-!
# When a run hangs

A run that stays within what is declared moves in declared situations only: a state below the number
of states, a position on the tape and a content of declared symbols. There are `declaredBound` of
them at most, so a run that ends makes no more moves (`MovesExactly.le_declaredBound`), and a run of
a program without findings that would make one more never halts (`hang_of_bound`).
-/

namespace TapeMachine

namespace Machine

variable {m : Machine}

/-- The number of declared states, times the number of cells, times the number of ways to fill the
cells with declared symbols. -/
def declaredBound (m : Machine) (tape : Tape) : Nat :=
  m.numStates * tape.size * m.alphabet.size ^ tape.size

/-- The declared states. -/
def declaredStates (m : Machine) : Finset State := (Finset.range m.numStates).image State.mk

/-- The declared symbols. -/
def declaredSymbols (m : Machine) : Finset Symbol := m.alphabet.toList.toFinset

/-- The declared situations on a tape. -/
def declaredSituations (m : Machine) (tape : Tape) : Finset (State × Int × List Symbol) :=
  m.declaredStates ×ˢ positionsBelow tape.size ×ˢ contentsOver fun _ : Fin tape.size ↦
    m.declaredSymbols

/-- A run within what is declared is in a declared situation. -/
theorem Within.situation_mem {e : Execution} (h : m.Within e) :
    e.situation ∈ m.declaredSituations e.tape := by
  refine Finset.mem_product.mpr ⟨?_, Finset.mem_product.mpr ⟨mem_positionsBelow h.covers, ?_⟩⟩
  · exact Finset.mem_image.mpr ⟨e.state.index, Finset.mem_range.mpr h.state_lt, rfl⟩
  · apply mem_contentsOver e.tape.length_toList
    intro i s hs
    exact List.mem_toFinset.mpr
      (SortedSet.mem_toList_iff.mpr (h.declares s (List.mem_of_getElem? hs)))

/-- There are no more declared situations than the bound. -/
theorem card_declaredSituations_le (m : Machine) (tape : Tape) :
    (m.declaredSituations tape).card ≤ m.declaredBound tape := by
  have hstates : m.declaredStates.card ≤ m.numStates :=
    Finset.card_image_le.trans_eq (Finset.card_range m.numStates)
  have hsymbols : m.declaredSymbols.card ≤ m.alphabet.size :=
    (List.toFinset_card_le _).trans_eq (List.length_map _)
  rw [declaredSituations, Finset.card_product, Finset.card_product, declaredBound, Nat.mul_assoc]
  exact Nat.mul_le_mul hstates <|
    Nat.mul_le_mul (card_positionsBelow_le _) (card_contentsOver_le fun _ ↦ hsymbols)

/-- A run on declared symbols that ends makes no more moves than the bound. -/
theorem MovesExactly.le_declaredBound {tape : Tape} {head : Int} {n : Nat}
    (h : m.MovesExactly (m.launch tape head) n) (hm : m.Consistent) (ht : m.Declares tape)
    (hc : tape.Covers head) : n ≤ m.declaredBound tape := by
  refine (h.le_card fun k _ ↦ ?_).trans (m.card_declaredSituations_le tape)
  have hsituation := (hm.within ht hc k).situation_mem
  have hsize := (Execution.trail_iterate_step m tape head k).size_eq
  rwa [declaredSituations, hsize] at hsituation

/-- After its last move a run makes no other. -/
theorem MovesExactly.not_movesNext {e : Execution} {n k : Nat} (h : m.MovesExactly e n)
    (hk : n ≤ k) : m.movesNext (m.step^[k] e) = false := by
  rcases Nat.eq_or_lt_of_le hk with rfl | hlt
  · exact h.rests
  · apply movesNext_of_isHalted
    rw [← Nat.add_sub_of_le hlt, iterate_step_add_of_isHalted h.isHalted]
    exact h.isHalted

/-- A run that never halts is given up under every budget. -/
theorem RunsForever.runBounded {e : Execution} (h : m.RunsForever e) (budget : Nat) :
    (m.runBounded budget e).isHalted = false := by
  rw [Machine.runBounded, runFor_of_moves fun k _ ↦ h.movesNext k]
  exact h _

end Machine

/-- A run of a program without findings that has made as many moves as the bound says, and would
move again, never halts; and so does one that is given up under the bound as its budget, if the
count of moves can go that far. No budget shows a halt of such a run. -/
theorem hang_of_bound {p : Program} (h : p.findings = []) {r : Run} (hr : r ∈ p.runs) :
    let m := p.machine
    let bound := m.numStates * r.tape.size * m.alphabet.size ^ r.tape.size
    let start := m.launch r.tape r.head
    ((∃ k, (m.step^[k] start).steps = bound ∧ m.movesNext (m.step^[k] start) = true) ∨
      bound ≤ maxCount ∧ (m.runBounded bound start).isHalted = false) →
    (∀ k, (m.step^[k] start).isHalted = false) ∧
      ∀ budget, (m.runBounded budget start).isHalted = false := by
  intro m bound start hgo
  obtain ⟨hmachine, hruns⟩ := Program.findings_eq_nil_iff.mp h
  obtain ⟨hdeclares, hcovers⟩ := hruns r hr
  rcases m.exists_movesExactly_or_runsForever start with ⟨n, hn⟩ | hforever
  · exfalso
    have hle : n ≤ bound :=
      hn.le_declaredBound (Machine.consistent_of_findings_eq_nil hmachine) hdeclares hcovers
    rcases hgo with ⟨k, hk, hmoves⟩ | ⟨hmax, hgiven⟩
    · have hgoes : (m.step^[k] start).isHalted = false := by
        by_contra hhalted
        rw [Machine.movesNext_of_isHalted (by simpa using hhalted)] at hmoves
        cases hmoves
      have hcount : (m.step^[k] start).steps = 0 + k := Machine.steps_iterate_of_not_isHalted hgoes
      rw [hn.not_movesNext (by omega)] at hmoves
      cases hmoves
    · have hbudget : min (start.steps + bound) maxCount - start.steps = bound := by
        have hzero : start.steps = 0 := rfl
        omega
      rw [Machine.runBounded, hbudget, Machine.runFor_of_movesExactly hn hle, hn.isHalted] at hgiven
      cases hgiven
  · exact ⟨hforever, hforever.runBounded⟩

/-- A machine that goes to and fro on two cells, with its input. -/
def pendulum : Program where
  name := "pendulum"
  mode := .strict
  machine := Machine.shuttle.addSymbol ⟨'a', .refl true⟩
  runs := [⟨⟨#[⟨'a', .refl true⟩, ⟨'a', .refl true⟩]⟩, 0⟩]

/-- It is still moving after four moves, as many as it has situations. -/
theorem hang_of_bound_pendulum :
    let m := pendulum.machine
    let r : Run := ⟨⟨#[⟨'a', rfl⟩, ⟨'a', rfl⟩]⟩, 0⟩
    let start := m.launch r.tape r.head
    (pendulum.findings = [] ∧ r ∈ pendulum.runs ∧
      m.numStates * r.tape.size * m.alphabet.size ^ r.tape.size = 4 ∧ 4 ≤ maxCount ∧
      (m.runBounded 4 start).isHalted = false) ∧
    (∀ k, (m.step^[k] start).isHalted = false) ∧
      ∀ budget, (m.runBounded budget start).isHalted = false := by
  intro m r start
  have hfindings : pendulum.findings = [] := by decide
  have hrun : r ∈ pendulum.runs := List.mem_cons_self
  have hbound : m.numStates * r.tape.size * m.alphabet.size ^ r.tape.size = 4 := by decide
  have hgiven : (m.runBounded 4 start).isHalted = false := by decide
  exact ⟨⟨hfindings, hrun, hbound, by decide, hgiven⟩,
    hang_of_bound hfindings hrun (.inr ⟨by decide, hbound.symm ▸ hgiven⟩)⟩

end TapeMachine
